import CppBase.Spec.Unpack

/-! What reading from an `Unpack` does, as long as the input lasts. -/

namespace CppBase.Packet

open CppBase.Lib

/-- The cursor is inside the input `mem` and `xs` is what it has left to read. -/
structure Unpack.At (s : Unpack) (mem xs : List UInt8) : Prop where
  input : s.mem = mem
  inside : s.m_data + s.m_size = mem.length
  rest : mem.drop s.m_data = xs

theorem Unpack.at_ofBytes (bytes : List UInt8) : (Unpack.ofBytes bytes).At bytes bytes :=
  ⟨rfl, Nat.zero_add _, rfl⟩

variable {s : Unpack} {mem bs rest : List UInt8}

theorem Unpack.At.size (h : s.At mem bs) : s.m_size = bs.length := by
  have hin := h.inside
  have hlen := congrArg List.length h.rest
  rw [List.length_drop] at hlen
  omega

theorem Unpack.At.skip (h : s.At mem (bs ++ rest)) : (s.skip bs.length).At mem rest := by
  have hsize := h.size
  rw [List.length_append] at hsize
  refine ⟨h.input, ?_, ?_⟩
  · have hin := h.inside
    simp only [Unpack.skip, sizeSub]
    split_ifs <;> omega
  · simp only [Unpack.skip]
    rw [← List.drop_drop, h.rest, List.drop_left]

theorem exec_load (h : s.At mem (bs ++ rest)) : exec (load s.m_data bs.length) s = (.ok bs, s) := by
  have hin := h.inside
  have hsize := h.size
  rw [List.length_append] at hsize
  simp only [load, exec_bind, exec_gets, exec_ite, exec_pure, h.input]
  rw [if_pos (by omega), h.rest, List.take_left]

/-- On inputs shorter than `n`, the code reads exactly the bytes and returns the value. -/
def Reads {α : Type} (n : ℕ) (m : UnpackM α) (bytes : List UInt8) (a : α) : Prop :=
  ∀ s mem rest, Unpack.At s mem (bytes ++ rest) → (bytes ++ rest).length < n →
    ∃ t, exec m s = (.ok a, t) ∧ t.At mem rest

section Rules

variable {α β : Type} {n : ℕ} {m : UnpackM α} {a : α} {cs : List UInt8}

theorem reads_pure (n : ℕ) (a : α) : Reads n (pure a) [] a := fun s _ _ h _ => ⟨s, rfl, h⟩

theorem Reads.bind {f : α → UnpackM β} {b : β} (hm : Reads n m bs a) (hf : Reads n (f a) cs b) :
    Reads n (m >>= f) (bs ++ cs) b := by
  intro s mem rest h hn
  rw [List.append_assoc] at h hn
  obtain ⟨t, ht, hat⟩ := hm s mem _ h hn
  rw [List.length_append] at hn
  obtain ⟨u, hu, hau⟩ := hf t mem rest hat (by omega)
  exact ⟨u, by rw [exec_bind_ok ht, hu], hau⟩

/-- A second part that reads nothing. -/
theorem Reads.bind_nil {f : α → UnpackM β} {b : β} (hm : Reads n m bs a) (hf : Reads n (f a) [] b) :
    Reads n (m >>= f) bs b := by
  have h := hm.bind hf
  rwa [List.append_nil] at h

theorem Reads.map (f : α → β) (hm : Reads n m bs a) : Reads n (f <$> m) bs (f a) := by
  rw [← bind_pure_comp]
  exact hm.bind_nil (reads_pure n (f a))

theorem reads_popUint (n : ℕ) (what : String) (bs : List UInt8) :
    Reads n (popUint bs.length what) bs (ofLeBytes bs) := by
  intro s mem rest h _
  refine ⟨s.skip bs.length, ?_, h.skip⟩
  have hsize := h.size
  rw [List.length_append] at hsize
  simp only [popUint, exec_bind, exec_gets, if_neg (show ¬ s.m_size < bs.length by omega),
    exec_load h, advance, exec_modifies, exec_pure]

theorem reads_popUint_leBytes (n width : ℕ) {x : ℕ} (what : String) (hx : x < 256 ^ width) :
    Reads n (popUint width what) (leBytes width x) x := by
  have h := reads_popUint n what (leBytes width x)
  rwa [length_leBytes, ofLeBytes_leBytes_of_lt hx] at h

theorem reads_popUint8 (n : ℕ) (x : UInt8) : Reads n popUint8 (leBytes 1 x.toNat) x := by
  have h := (reads_popUint_leBytes n 1 "pop_uint8: not enough data" x.toNat_lt).map UInt8.ofNat
  rwa [UInt8.ofNat_toNat] at h

theorem reads_popUint16 (n : ℕ) (x : UInt16) : Reads n popUint16 (leBytes 2 x.toNat) x := by
  have h := (reads_popUint_leBytes n 2 "pop_uint16: not enough data" x.toNat_lt).map UInt16.ofNat
  rwa [UInt16.ofNat_toNat] at h

theorem reads_popUint32 (n : ℕ) (x : UInt32) : Reads n popUint32 (leBytes 4 x.toNat) x := by
  have h := (reads_popUint_leBytes n 4 "pop_uint32: not enough data" x.toNat_lt).map UInt32.ofNat
  rwa [UInt32.ofNat_toNat] at h

theorem reads_popUint64 (n : ℕ) (x : UInt64) : Reads n popUint64 (leBytes 8 x.toNat) x := by
  have h := (reads_popUint_leBytes n 8 "pop_uint64: not enough data" x.toNat_lt).map UInt64.ofNat
  rwa [UInt64.ofNat_toNat] at h

theorem reads_popVarstr (n : ℕ) {s : List UInt8} (h : s.length ≤ 65535) :
    Reads n popVarstr (leBytes 2 s.length ++ s) s := by
  intro u mem rest hat hn
  rw [List.append_assoc] at hat hn
  have hlen : (UInt16.ofNat s.length).toNat = s.length := toNat_uint16 (by omega)
  have hcount := reads_popUint16 n (UInt16.ofNat s.length)
  rw [hlen] at hcount
  obtain ⟨t, ht, hat'⟩ := hcount u mem (s ++ rest) hat hn
  have hsize := hat'.size
  rw [List.length_append] at hsize
  have hptr : exec popVarstrPtr u = (.ok ⟨t.m_data, s.length⟩, t.skip s.length) := by
    rw [popVarstrPtr, exec_bind_ok ht]
    simp only [popFetchPtr, exec_bind, exec_gets, hlen, if_neg (show ¬ t.m_size < s.length by omega),
      advance, exec_modifies, exec_pure]
  refine ⟨t.skip s.length, ?_, hat'.skip⟩
  rw [popVarstr, exec_bind_ok hptr]
  have hin := hat'.inside
  simp only [load, exec_bind, exec_gets, exec_ite, exec_pure, Unpack.skip, hat'.input]
  rw [if_pos (by omega), hat'.rest, List.take_left]

end Rules

end CppBase.Packet
