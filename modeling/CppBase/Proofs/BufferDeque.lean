import CppBase.Spec.NetBuffer

/-! `Buffer` as a sequence of bytes that grows at both ends, wherever its two indices are and
whenever it moves or extends its vector. -/

namespace CppBase.Muduo.Buffer

open CppBase.Lib

variable {s : Buffer} {n : ℕ} {d : List UInt8}

section Reading

theorem contents_retrieveAll (s : Buffer) : s.retrieveAll.contents = [] := by
  simp [contents, slice, retrieveAll, readableBytes]

theorem retrieve_ok (h : n ≤ s.readableBytes) :
    ∃ t, s.retrieve n = .ok t ∧ t.contents = s.contents.drop n ∧
      (s.readerIndex ≤ t.readerIndex ∨ t.readerIndex = kCheapPrepend) := by
  unfold retrieve
  rw [if_pos h]
  split
  · refine ⟨_, rfl, ?_, .inl (Nat.le_add_right _ _)⟩
    simp only [contents, readableBytes]
    rw [← slice_drop, Nat.sub_sub]
  · refine ⟨_, rfl, ?_, .inr rfl⟩
    rw [contents_retrieveAll, List.drop_eq_nil_of_le]
    rw [length_contents]
    omega

theorem unwrite_ok (h : n ≤ s.readableBytes) :
    ∃ t, s.unwrite n = .ok t ∧ t.contents = s.contents.take (s.contents.length - n) ∧
      t.readerIndex = s.readerIndex := by
  unfold unwrite
  rw [dif_pos h]
  refine ⟨_, rfl, ?_, rfl⟩
  rw [length_contents]
  unfold readableBytes at h ⊢
  simp only [contents, readableBytes, slice, List.take_take]
  congr 1
  omega

end Reading

section Writing

theorem writeDirect_ok (h : d.length ≤ s.writableBytes) :
    ∃ t, s.writeDirect d = .ok t ∧ t.contents = s.contents ++ d ∧ t.readerIndex = s.readerIndex := by
  have hbound := s.bound
  have hroom : s.writerIndex + d.length ≤ s.buffer.length := by
    unfold writableBytes at h
    omega
  have hwritable : d.length ≤ (patch s.buffer s.writerIndex d).length - s.writerIndex := by
    rwa [length_patch hroom]
  unfold writeDirect copyIn
  rw [dif_pos hroom, ok_bind, hasWritten, dif_pos (by exact hwritable)]
  exact ⟨_, rfl, slice_patch s.order hroom, rfl⟩

/-- `makeSpace` where room is missing: its assertion holds, and there is room afterwards. -/
theorem makeSpace_ok (h : s.writableBytes < n) :
    ∃ t, s.makeSpace n = .ok t ∧ t.contents = s.contents ∧ n ≤ t.writableBytes ∧
      (t.readerIndex = s.readerIndex ∨ t.readerIndex = kCheapPrepend) := by
  have horder := s.order
  have hbound := s.bound
  unfold makeSpace
  split
  · refine ⟨_, rfl, slice_append ?_ _, ?_, .inl rfl⟩
    · show s.readerIndex + (s.writerIndex - s.readerIndex) ≤ _
      omega
    · unfold writableBytes at h ⊢
      simp only [extend, List.length_append, List.length_replicate]
      omega
  · rename_i hmove
    have hreader : kCheapPrepend < s.readerIndex := by
      unfold prependableBytes at hmove
      omega
    have hfront : kCheapPrepend + s.contents.length ≤ s.buffer.length := by
      rw [length_contents]
      exact s.front_bound hreader
    rw [dif_pos hreader]
    refine ⟨_, rfl, ?_, ?_, .inr rfl⟩
    · have hslice := slice_patch (le_refl kCheapPrepend) hfront
      rw [Nat.sub_self, length_contents] at hslice
      exact hslice
    · unfold writableBytes prependableBytes readableBytes at *
      dsimp only
      rw [length_patch hfront]
      omega

theorem ensureWritableBytes_ok (s : Buffer) (n : ℕ) :
    ∃ t, s.ensureWritableBytes n = .ok t ∧ t.contents = s.contents ∧ n ≤ t.writableBytes ∧
      (t.readerIndex = s.readerIndex ∨ t.readerIndex = kCheapPrepend) := by
  unfold ensureWritableBytes
  by_cases h : s.writableBytes < n
  · obtain ⟨t, ht, hcontents, hroom, hreader⟩ := makeSpace_ok h
    refine ⟨t, ?_, hcontents, hroom, hreader⟩
    rw [if_pos h, ht, ok_bind]
    exact if_pos hroom
  · have hroom : n ≤ s.writableBytes := Nat.le_of_not_lt h
    refine ⟨s, ?_, rfl, hroom, .inl rfl⟩
    rw [if_neg h, ok_bind]
    exact if_pos hroom

theorem append_ok (s : Buffer) (d : List UInt8) :
    ∃ t, s.append d = .ok t ∧ t.contents = s.contents ++ d ∧
      (t.readerIndex = s.readerIndex ∨ t.readerIndex = kCheapPrepend) := by
  obtain ⟨t, ht, hcontents, hroom, hreader⟩ := s.ensureWritableBytes_ok d.length
  obtain ⟨u, hu, hwritten, hsame⟩ := writeDirect_ok hroom
  refine ⟨u, ?_, by rw [hwritten, hcontents], by rwa [hsame]⟩
  rw [append, ht, ok_bind]
  exact hu

theorem prepend_ok (h : d.length ≤ s.prependableBytes) :
    ∃ t, s.prepend d = .ok t ∧ t.contents = d ++ s.contents ∧ t.readerIndex + d.length = s.readerIndex := by
  have horder := s.order
  have hbound := s.bound
  have hroom : s.readerIndex - d.length + d.length ≤ s.buffer.length := by
    unfold prependableBytes at h
    omega
  unfold prepend
  rw [if_pos h, copyIn, dif_pos hroom]
  unfold prependableBytes at h
  refine ⟨_, rfl, ?_, Nat.sub_add_cancel h⟩
  have hbefore : (s.buffer.take (s.readerIndex - d.length)).length = s.readerIndex - d.length := by
    rw [List.length_take]
    omega
  have hcount : s.writerIndex - (s.readerIndex - d.length) - d.length = s.writerIndex - s.readerIndex := by omega
  simp only [contents, readableBytes, slice, patch]
  rw [List.append_assoc, List.drop_left' hbefore, Nat.sub_add_cancel h, List.take_append,
    List.take_of_length_le (by omega), hcount]

theorem contents_create (n : ℕ) : (create n).contents = [] := by
  simp [contents, slice, create, readableBytes]

theorem appendPiece_ok (u : Buffer) (h : s.readableBytes < 2 ^ 31) :
    ∃ t, u.appendPiece s.toStringPiece = .ok t ∧ t.contents = u.contents ++ s.contents ∧
      (t.readerIndex = u.readerIndex ∨ t.readerIndex = kCheapPrepend) := by
  have hsize : (s.readableBytes : ℤ).bmod (2 ^ 32) = s.readableBytes :=
    Int.bmod_eq_of_le_mul_two (by omega) (by omega)
  have hall : s.contents.take (s.readableBytes : ℤ).toNat = s.contents := by
    rw [Int.toNat_natCast, ← length_contents, List.take_length]
  have hkeep : u.appendPiece s.toStringPiece = u.append s.contents := by
    rw [appendPiece, toStringPiece, hsize, if_neg (by omega), if_neg (by omega), hall]
  rw [hkeep]
  exact u.append_ok s.contents

theorem shrink_ok (n : ℕ) (h : s.readableBytes < 2 ^ 31) :
    ∃ t, s.shrink n = .ok t ∧ t.contents = s.contents ∧ t.readerIndex = kCheapPrepend := by
  obtain ⟨t, ht, hcontents, -, hreader⟩ := (create kInitialSize).ensureWritableBytes_ok (s.readableBytes + n)
  obtain ⟨u, hu, hwritten, hsame⟩ := appendPiece_ok t h
  have ht8 : t.readerIndex = kCheapPrepend := hreader.elim id id
  refine ⟨u, ?_, ?_, hsame.elim (fun h => h.trans ht8) id⟩
  · rw [shrink, ht, ok_bind]
    exact hu
  · rw [hwritten, hcontents, contents_create, List.nil_append]

/-- What `readv` puts into `extrabuf` follows what it puts into the buffer. -/
theorem readFd_ok (s : Buffer) (d : Option (List UInt8)) :
    ∃ t, s.readFd d = .ok t ∧ t.contents = s.contents ++ d.getD [] ∧
      (t.readerIndex = s.readerIndex ∨ t.readerIndex = kCheapPrepend) := by
  cases d with
  | none => exact ⟨s, rfl, by simp, .inl rfl⟩
  | some d =>
    by_cases h : d.length ≤ s.writableBytes
    · obtain ⟨t, ht, hcontents, hreader⟩ := writeDirect_ok h
      refine ⟨t, ?_, hcontents, .inl hreader⟩
      rw [readFd, if_pos h]
      exact ht
    · have hlen : (d.take s.writableBytes).length = s.writableBytes := by
        rw [List.length_take]
        omega
      obtain ⟨t, ht, hfirst, hreader⟩ := writeDirect_ok hlen.le
      obtain ⟨u, hu, hrest, hreader'⟩ := t.append_ok (d.drop s.writableBytes)
      refine ⟨u, ?_, ?_, by rwa [hreader] at hreader'⟩
      · rw [writeDirect, hlen] at ht
        rw [readFd, if_neg h, ← bind_assoc, ht, ok_bind, hu]
      · rw [hrest, hfirst, List.append_assoc, List.take_append_drop, Option.getD_some]

end Writing

section Integers

theorem peekInt_ok (h : n ≤ s.readableBytes) :
    s.peekInt n = .ok (BitVec.ofNat (8 * n) (ofBeBytes (s.contents.take n))) := if_pos h

theorem readInt_ok (h : n ≤ s.readableBytes) :
    ∃ t, s.readInt n = .ok (BitVec.ofNat (8 * n) (ofBeBytes (s.contents.take n)), t) ∧
      t.contents = s.contents.drop n ∧ (s.readerIndex ≤ t.readerIndex ∨ t.readerIndex = kCheapPrepend) := by
  obtain ⟨t, ht, hrest⟩ := retrieve_ok h
  refine ⟨t, ?_, hrest⟩
  rw [readInt, peekInt_ok h, ok_bind, ht, ok_bind]

theorem retrieveAsString_ok (h : n ≤ s.readableBytes) :
    ∃ t, s.retrieveAsString n = .ok (s.contents.take n, t) ∧
      t.contents = s.contents.drop n ∧ (s.readerIndex ≤ t.readerIndex ∨ t.readerIndex = kCheapPrepend) := by
  obtain ⟨t, ht, hrest⟩ := retrieve_ok h
  refine ⟨t, ?_, hrest⟩
  rw [retrieveAsString, if_pos h, ht, ok_bind]

end Integers

section Runs

/-- What a call answers, and what it does to the bytes. -/
def reference (l : List UInt8) : Op → Answer × List UInt8
  | .retrieve len => (.none, l.drop len)
  | .retrieveAll => (.none, [])
  | .retrieveAsString len => (.string (l.take len), l.drop len)
  | .retrieveAllAsString => (.string l, [])
  | .append data | .writeDirect data => (.none, l ++ data)
  | .ensureWritableBytes _ | .shrink _ => (.none, l)
  | .unwrite len => (.none, l.take (l.length - len))
  | .prepend data => (.none, data ++ l)
  | .appendInt n x => (.none, l ++ beBytes n x.toNat)
  | .peekInt n => (.int n (BitVec.ofNat (8 * n) (ofBeBytes (l.take n))), l)
  | .readInt n => (.int n (BitVec.ofNat (8 * n) (ofBeBytes (l.take n))), l.drop n)
  | .prependInt n x => (.none, beBytes n x.toNat ++ l)
  | .readFd data => (.none, l ++ data.getD [])

theorem reference_readInt_prependInt (l : List UInt8) (x : BitVec (8 * n)) :
    reference (reference l (.prependInt n x)).2 (.readInt n) = (.int n x, l) := by
  have hlt : x.toNat < 256 ^ n := by
    have := x.isLt
    rwa [pow_mul] at this
  have hlength : (beBytes n x.toNat).length = n := length_beBytes _ _
  simp only [reference]
  rw [List.take_left' hlength, List.drop_left' hlength, ofBeBytes_beBytes_of_lt hlt, BitVec.ofNat_toNat,
    BitVec.setWidth_eq]

def Op.prepended : Op → ℕ
  | .prepend data => data.length
  | .prependInt n _ => n
  | _ => 0

/-- What the caller has to see to. -/
def Op.allowed (s : Buffer) : Op → Prop
  | .retrieve len | .retrieveAsString len | .unwrite len | .peekInt len | .readInt len => len ≤ s.readableBytes
  | .writeDirect data => data.length ≤ s.writableBytes
  | .prepend data => data.length ≤ s.prependableBytes
  | .prependInt n _ => n ≤ s.prependableBytes
  | .readFd data => (data.getD []).length ≤ s.readLimit
  | .shrink _ => s.readableBytes < 2 ^ 31
  | .retrieveAll | .retrieveAllAsString | .append _ | .appendInt _ _ | .ensureWritableBytes _ => True

/-- What is left to show of a call that answers nothing. -/
theorem exists_silent {x : Except Fault Buffer} {P : Buffer → Prop} (h : ∃ t, x = .ok t ∧ P t) :
    ∃ t, silent <$> x = .ok (.none, t) ∧ P t := by
  obtain ⟨t, rfl, ht⟩ := h
  exact ⟨t, rfl, ht⟩

theorem call_ok (s : Buffer) (op : Op) (h : op.allowed s) :
    ∃ t, s.call op = .ok ((reference s.contents op).1, t) ∧ t.contents = (reference s.contents op).2 ∧
      (s.readerIndex ≤ t.readerIndex + op.prepended ∨ t.readerIndex = kCheapPrepend) := by
  cases op with
  | retrieve len => exact exists_silent (retrieve_ok h)
  | retrieveAll => exact ⟨_, rfl, contents_retrieveAll s, .inr rfl⟩
  | retrieveAsString len =>
    obtain ⟨t, ht, hrest⟩ := retrieveAsString_ok h
    exact ⟨t, by rw [call, ht, ok_bind, reference], hrest⟩
  | retrieveAllAsString =>
    obtain ⟨t, ht, hcontents, hreader⟩ := retrieveAsString_ok (le_refl s.readableBytes)
    rw [← length_contents, List.take_length] at ht
    rw [← length_contents, List.drop_length] at hcontents
    refine ⟨t, ?_, hcontents, hreader⟩
    rw [call, retrieveAllAsString, ← length_contents, ht, ok_bind, reference]
  | append data =>
    obtain ⟨t, ht, hcontents, hreader⟩ := s.append_ok data
    exact exists_silent ⟨t, ht, hcontents, hreader.imp_left Eq.ge⟩
  | ensureWritableBytes len =>
    obtain ⟨t, ht, hcontents, -, hreader⟩ := s.ensureWritableBytes_ok len
    exact exists_silent ⟨t, ht, hcontents, hreader.imp_left Eq.ge⟩
  | writeDirect data =>
    obtain ⟨t, ht, hcontents, hreader⟩ := writeDirect_ok h
    exact exists_silent ⟨t, ht, hcontents, .inl hreader.ge⟩
  | unwrite len =>
    obtain ⟨t, ht, hcontents, hreader⟩ := unwrite_ok h
    exact exists_silent ⟨t, ht, hcontents, .inl hreader.ge⟩
  | prepend data =>
    obtain ⟨t, ht, hcontents, hreader⟩ := prepend_ok h
    exact exists_silent ⟨t, ht, hcontents, .inl hreader.ge⟩
  | shrink reserve =>
    obtain ⟨t, ht, hcontents, hreader⟩ := shrink_ok reserve h
    exact exists_silent ⟨t, ht, hcontents, .inr hreader⟩
  | appendInt n x =>
    obtain ⟨t, ht, hcontents, hreader⟩ := s.append_ok (beBytes n x.toNat)
    exact exists_silent ⟨t, ht, hcontents, hreader.imp_left Eq.ge⟩
  | peekInt n => exact ⟨s, by rw [call, peekInt_ok h, ok_bind, reference], rfl, .inl le_rfl⟩
  | readInt n =>
    obtain ⟨t, ht, hrest⟩ := readInt_ok h
    exact ⟨t, by rw [call, ht, ok_bind, reference], hrest⟩
  | prependInt n x =>
    have hlength : (beBytes n x.toNat).length = n := length_beBytes _ _
    obtain ⟨t, ht, hcontents, hreader⟩ := prepend_ok (hlength.trans_le h)
    rw [hlength] at hreader
    exact exists_silent ⟨t, ht, hcontents, .inl hreader.ge⟩
  | readFd data =>
    obtain ⟨t, ht, hcontents, hreader⟩ := s.readFd_ok data
    exact exists_silent ⟨t, ht, hcontents, hreader.imp_left Eq.ge⟩

/-- The reference beside which the bytes put in front are counted. -/
def tally (x : List UInt8 × ℕ) (op : Op) : Answer × List UInt8 × ℕ :=
  ((reference x.1 op).1, (reference x.1 op).2, x.2 + op.prepended)

theorem foldl_tally (ops : List Op) (x : List UInt8 × ℕ) :
    ops.foldl (fun x op => (tally x op).2) x =
      (ops.foldl (fun l op => (reference l op).2) x.1, x.2 + (ops.map Op.prepended).sum) := by
  induction ops generalizing x with
  | nil => rfl
  | cons op ops ih =>
    rw [List.foldl_cons, ih, List.foldl_cons, List.map_cons, List.sum_cons, ← Nat.add_assoc]
    rfl

theorem answers_tally (ops : List Op) (x : List UInt8 × ℕ) : answers tally x ops = answers reference x.1 ops :=
  answers_eq (R := fun l x => x.1 = l) (fun l x op hx => by rw [tally, hx]; exact ⟨rfl, rfl⟩) rfl ops

end Runs

/-- Whatever calls are made on a new buffer, if none takes out or puts in front more than
there is room for, then no assertion inside fails and no byte is copied outside the vector;
the answers and the readable bytes are those of the plain sequence; and eight bytes, less
those put in front so far, can always be put in front. -/
theorem buffer_is_deque (initialSize : ℕ) (ops : List Op)
    (h : Along (logged call) (fun s op => op.allowed s.1) (create initialSize, []) ops) :
    ∃ t, runAll (logged call) (create initialSize, []) ops = .ok (t, answers reference [] ops) ∧
      t.contents = ops.foldl (fun l op => (reference l op).2) [] ∧
      kCheapPrepend ≤ t.prependableBytes + (ops.map Op.prepended).sum := by
  have hstep : ∀ (s : Buffer) (x : List UInt8 × ℕ) (op : Op),
      s.contents = x.1 ∧ kCheapPrepend ≤ s.readerIndex + x.2 → op.allowed s →
      ∃ t, s.call op = .ok ((tally x op).1, t) ∧
        t.contents = (tally x op).2.1 ∧ kCheapPrepend ≤ t.readerIndex + (tally x op).2.2 := by
    rintro s x op ⟨hcontents, hcheap⟩ hallowed
    obtain ⟨t, ht, hnew, hreader⟩ := s.call_ok op hallowed
    rw [hcontents] at ht hnew
    refine ⟨t, ht, hnew, ?_⟩
    show kCheapPrepend ≤ t.readerIndex + (x.2 + op.prepended)
    omega
  obtain ⟨t, ht, hcontents, hcheap⟩ := h.answers_logged hstep (x := ([], 0)) ⟨contents_create _, le_rfl⟩
  rw [List.nil_append, answers_tally] at ht
  rw [foldl_tally] at hcontents hcheap
  rw [Nat.zero_add] at hcheap
  exact ⟨t, ht, hcontents, hcheap⟩

/-- Five bytes into a buffer of four: the vector grows; with three taken out and one put in
front, two more make the rest move to the front, and a short is read. -/
theorem buffer_is_deque_moved :
    ∃ t, runAll (logged call) (create 4, [])
        [.append [1, 2, 3, 4, 5], .retrieve 3, .prepend [9], .append [6, 7], .readInt 2] =
          .ok (t, [.none, .none, .none, .none, .int 2 0x0904]) ∧
      t.contents = [5, 6, 7] ∧ kCheapPrepend ≤ t.prependableBytes + 1 := by
  refine buffer_is_deque 4 [.append [1, 2, 3, 4, 5], .retrieve 3, .prepend [9], .append [6, 7], .readInt 2] ?_
  refine (along_cons rfl).mpr ⟨trivial, (along_cons rfl).mpr ⟨?_, (along_cons rfl).mpr ⟨?_, ?_⟩⟩⟩
  · exact (by decide : 3 ≤ 5)
  · exact (by decide : 1 ≤ 11)
  · refine (along_cons rfl).mpr ⟨trivial, (along_cons rfl).mpr ⟨?_, along_nil⟩⟩
    exact (by decide : 2 ≤ 5)

end CppBase.Muduo.Buffer
