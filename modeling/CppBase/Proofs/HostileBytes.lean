import CppBase.Lib.Hoare
import CppBase.Sanity.UnpackEffects
import CppBase.Spec.Codec

/-! Reading arbitrary bytes: the cursor stays inside the input, only `UnpackError`
is thrown, and every element and every string byte of the result was paid for with
a byte of the input. -/

namespace CppBase.Packet

open CppBase.Lib

/-- The cursor over `mem` is sound, and always was: `m_size` is the number of bytes left. -/
structure Unpack.Inside (mem : List UInt8) (s : Unpack) : Prop where
  input : s.mem = mem
  now : s.m_data + s.m_size = mem.length
  always : ∀ e ∈ s.trail, e.1 + e.2 = mem.length

theorem Unpack.inside_ofBytes (bytes : List UInt8) : (Unpack.ofBytes bytes).Inside bytes :=
  ⟨rfl, Nat.zero_add _, by simp [Unpack.ofBytes]⟩

def Thrown (mem : List UInt8) (e : Fault) (s : Unpack) : Prop := s.Inside mem ∧ ∃ what, e = .unpackError what

def From (mem : List UInt8) (pos : ℕ) (s : Unpack) : Prop := s.Inside mem ∧ pos ≤ s.m_data

theorem From.skip {mem : List UInt8} {pos k : ℕ} {s : Unpack} (h : From mem pos s) (hk : k ≤ s.m_size) :
    From mem (pos + k) (s.skip k) := by
  obtain ⟨⟨hinput, hnow, halways⟩, hpos⟩ := h
  have hsub : sizeSub s.m_size k = s.m_size - k := if_pos hk
  refine ⟨⟨hinput, ?_, ?_⟩, ?_⟩
  · simp only [Unpack.skip, hsub]
    omega
  · intro e he
    rcases List.mem_cons.mp he with rfl | he
    · simp only [hsub]
      omega
    · exact halways e he
  · simp only [Unpack.skip]
    omega

/-- The code is sound and consumes at least `cost a` bytes when it returns `a`. -/
def Consumes {α : Type} (m : UnpackM α) (cost : α → ℕ) : Prop :=
  ∀ mem pos, Triple (From mem pos) m (fun a => From mem (pos + cost a)) (Thrown mem)

section Rules

variable {α β : Type} {m : UnpackM α} {c c' : α → ℕ}

theorem consumes_pure (a : α) (h : c a = 0) : Consumes (pure a) c :=
  fun _ _ => triple_pure fun s hs => by rwa [h, Nat.add_zero]

theorem consumes_throw (what : String) : Consumes (fails (.unpackError what) : UnpackM α) c :=
  fun _ _ => triple_fails fun _ hs => ⟨hs.1, what, rfl⟩

theorem Consumes.weaken (hm : Consumes m c) (h : ∀ a, c' a ≤ c a) : Consumes m c' := by
  intro mem pos
  refine (hm mem pos).conseq (fun _ hs => hs) fun a s hs => ⟨hs.1, ?_⟩
  have ha := h a
  have hle := hs.2
  omega

/-- What the first part has consumed need not be consumed by the second. -/
theorem Consumes.bind {f : α → UnpackM β} {d : β → ℕ} (hm : Consumes m c)
    (hf : ∀ a, Consumes (f a) fun b => d b - c a) : Consumes (m >>= f) d := by
  intro mem pos
  refine (hm mem pos).bind fun a => (hf a mem (pos + c a)).conseq (fun _ hs => hs) fun b s hs => ⟨hs.1, ?_⟩
  have hle : pos + c a + (d b - c a) ≤ s.m_data := hs.2
  omega

theorem Consumes.map (f : α → β) {d : β → ℕ} (hm : Consumes m c) (h : ∀ a, d (f a) ≤ c a) :
    Consumes (f <$> m) d := by
  rw [← bind_pure_comp]
  exact hm.bind fun a => consumes_pure _ (Nat.sub_eq_zero_of_le (h a))

theorem consumes_ite {p : Prop} [Decidable p] {n : UnpackM α} (hm : Consumes m c) (hn : Consumes n c) :
    Consumes (if p then m else n) c :=
  fun mem pos => triple_ite (fun _ => hm mem pos) fun _ => hn mem pos

theorem consumes_gets (f : Unpack → α) : Consumes (gets f) fun _ => 0 :=
  fun _ _ => triple_gets fun _ hs => hs

end Rules

theorem consumes_popUint (width : ℕ) (what : String) : Consumes (popUint width what) fun _ => width := by
  intro mem pos s hs
  have hnow := hs.1.now
  simp only [popUint, load, advance, exec_bind, exec_gets, exec_ite]
  by_cases h : s.m_size < width
  · rw [if_pos h]
    exact ⟨hs.1, what, rfl⟩
  · have hin : s.m_data + width ≤ s.mem.length := by
      rw [hs.1.input]
      omega
    rw [if_neg h]
    simp only [if_pos hin, exec_pure, exec_modifies]
    exact hs.skip (not_lt.mp h)

theorem triple_popFetchPtr (mem : List UInt8) (pos k : ℕ) :
    Triple (From mem pos) (popFetchPtr k) (fun p s => From mem (pos + k) s ∧ p + k ≤ mem.length) (Thrown mem) := by
  intro s hs
  have hnow := hs.1.now
  simp only [popFetchPtr, advance, exec_bind, exec_gets, exec_ite]
  by_cases h : s.m_size < k
  · rw [if_pos h]
    exact ⟨hs.1, _, rfl⟩
  · rw [if_neg h]
    simp only [exec_pure, exec_modifies]
    exact ⟨hs.skip (not_lt.mp h), by omega⟩

theorem consumes_popUint16 : Consumes popUint16 fun _ => 2 :=
  (consumes_popUint 2 _).map UInt16.ofNat fun _ => le_refl _

theorem consumes_popUint32 : Consumes popUint32 fun _ => 4 :=
  (consumes_popUint 4 _).map UInt32.ofNat fun _ => le_refl _

theorem consumes_popVarstr : Consumes popVarstr fun s => 2 + s.length := by
  intro mem pos
  have hptr : Triple (From mem pos) popVarstrPtr
      (fun vs s => From mem (pos + (2 + vs.m_size)) s ∧ vs.m_data + vs.m_size ≤ mem.length) (Thrown mem) := by
    refine (consumes_popUint16 mem pos).bind fun size =>
      (triple_popFetchPtr mem (pos + 2) size.toNat).bind fun data => triple_pure fun s hs => ?_
    rwa [Nat.add_assoc] at hs
  refine hptr.bind fun vs s hs => ?_
  have hin : vs.m_data + vs.m_size ≤ s.mem.length := by
    rw [hs.1.1.input]
    exact hs.2
  have hlen : ((s.mem.drop vs.m_data).take vs.m_size).length = vs.m_size := by
    rw [List.length_take, List.length_drop]
    omega
  simp only [load, exec_bind, exec_gets, if_pos hin, exec_pure, hlen]
  exact hs.1

/-- The number of container elements and string bytes in a value. -/
def Ty.content : (t : Ty) → t.Val → ℕ
  | .bool | .uint8 | .uint16 | .uint32 | .uint64 => fun _ => 0
  | .string => fun v : List UInt8 => v.length
  | .pair a b => fun v : a.Val ×ₗ b.Val => a.content (ofLex v).1 + b.content (ofLex v).2
  | .vector t => fun v : List t.Val => (v.map fun x => 1 + t.content x).sum
  | .set t => fun v : Keyed (id : t.Val → t.Val) => (v.toList.map fun x => 1 + t.content x).sum
  | .map k v => fun m : Keyed fun p : k.Val ×ₗ v.Val => (ofLex p).1 =>
    (m.toList.map fun p => 1 + (k.content (ofLex p).1 + v.content (ofLex p).2)).sum

theorem consumes_countCheckUnknown (sizeof : ℕ) (count size : UInt32) :
    Consumes (countCheckUnknown sizeof count size) fun _ => 0 :=
  consumes_ite (consumes_throw _) (consumes_pure _ rfl)

theorem consumes_countCheckScalar (name : String) (width : ℕ) (count size : UInt32) :
    Consumes (countCheckScalar name width count size) fun _ => 0 :=
  consumes_ite (consumes_throw _) (consumes_pure _ rfl)

/-- Reading a new value is sound and costs a byte more than its content. -/
structure Codec.Safe {α : Type} [Inhabited α] (c : Codec α) (content : α → ℕ) : Prop where
  get : Consumes (c.get default) fun v => 1 + content v
  check : ∀ count size, Consumes (c.countCheck count size) fun _ => 0

namespace Codec.Safe

variable {α β κ : Type} [Inhabited α] [Inhabited β] {c : Codec α} {d : Codec β} {content : α → ℕ} {content' : β → ℕ}

theorem pair (sizeof : ℕ) (hc : c.Safe content) (hd : d.Safe content') :
    (Codec.pair sizeof c d).Safe fun p => content (ofLex p).1 + content' (ofLex p).2 where
  get := by
    refine hc.get.bind fun x => hd.get.bind fun y => consumes_pure _ ?_
    simp only [ofLex_toLex]
    omega
  check := consumes_countCheckUnknown sizeof

theorem getEach (hc : c.Safe content) (n : ℕ) :
    Consumes (c.getEach (List.replicate n default)) fun ys => (ys.map fun y => 1 + content y).sum := by
  induction n with
  | zero => exact consumes_pure _ rfl
  | succ n ih =>
    refine hc.get.bind fun y => Consumes.bind (ih.weaken fun _ => le_refl _) fun ys => consumes_pure _ ?_
    simp only [List.map_cons, List.sum_cons]
    omega

theorem vector (sizeof : ℕ) (hc : c.Safe content) :
    (Codec.vector sizeof c).Safe fun v => (v.map fun x => 1 + content x).sum where
  get := by
    refine consumes_popUint32.bind fun count => consumes_ite (consumes_pure _ rfl) ?_
    refine (consumes_gets _).bind fun size => (hc.check count _).bind fun _ => ?_
    have hresize : resize count.toNat default (default : List α) = List.replicate count.toNat default :=
      Codec.resize_nil _ _
    rw [hresize]
    refine (hc.getEach count.toNat).weaken fun ys => ?_
    omega
  check := consumes_countCheckUnknown sizeof

variable [LinearOrder κ] {key : α → κ}

/-- The loop pays for every element it inserts; those it drops are paid for as well. -/
theorem getInsert (hc : c.Safe content) (n : ℕ) (s : Keyed key) :
    Consumes (c.getInsert n s) fun t =>
      (t.toList.map fun x => 1 + content x).sum - (s.toList.map fun x => 1 + content x).sum := by
  induction n generalizing s with
  | zero => exact consumes_pure _ (Nat.sub_self _)
  | succ n ih =>
    refine hc.get.bind fun tmp => (ih (s.insert tmp)).weaken fun t => ?_
    have hle := sum_insertUnique_le key (fun x => 1 + content x) tmp s.toList
    rw [Keyed.toList_insert]
    omega

theorem keyed (sizeof : ℕ) (key : α → κ) (hc : c.Safe content) :
    (Codec.keyed sizeof key c).Safe fun s => (s.toList.map fun x => 1 + content x).sum where
  get := by
    refine consumes_popUint32.bind fun count => (hc.getInsert count.toNat default).weaken fun t => ?_
    have hempty : ((default : Keyed key).toList.map fun x => 1 + content x).sum = 0 := rfl
    rw [hempty]
    omega
  check := consumes_countCheckUnknown sizeof

end Codec.Safe

theorem Ty.codec_safe (sizeof : Ty → ℕ) (t : Ty) : (t.codec sizeof).Safe t.content := by
  induction t with
  | bool =>
    exact ⟨Consumes.map _ ((consumes_popUint 1 _).map UInt8.ofNat fun _ => le_refl 1) fun _ => le_refl 1,
      consumes_countCheckScalar "bool" 1⟩
  | uint8 => exact ⟨(consumes_popUint 1 _).map UInt8.ofNat fun _ => le_refl 1, consumes_countCheckScalar "uint8_t" 1⟩
  | uint16 =>
    exact ⟨consumes_popUint16.weaken fun _ => (by decide : 1 ≤ 2), consumes_countCheckScalar "uint16_t" 2⟩
  | uint32 =>
    exact ⟨consumes_popUint32.weaken fun _ => (by decide : 1 ≤ 4), consumes_countCheckScalar "uint32_t" 4⟩
  | uint64 =>
    exact ⟨(consumes_popUint 8 _).map UInt64.ofNat fun _ => (by decide : 1 ≤ 8),
      consumes_countCheckScalar "uint64_t" 8⟩
  | string =>
    exact ⟨consumes_popVarstr.weaken fun _ => Nat.add_le_add_right (by decide) _, consumes_countCheckUnknown _⟩
  | pair a b iha ihb => exact iha.pair (sizeof (.pair a b)) ihb
  | vector t ih => exact ih.vector (sizeof (.vector t))
  | set t ih => exact ih.keyed (sizeof (.set t)) id
  | map k v ihk ihv => exact (ihk.pair (sizeof (.pair k v)) ihv).keyed (sizeof (.map k v)) _

/-- Reading any bytes into a new variable ends, with the cursor inside the input at
every moment, in an `UnpackError` or with a value whose elements and string bytes
number at most the bytes consumed. -/
theorem decode_hostile (sizeof : Ty → ℕ) (t : Ty) (bytes : List UInt8) :
    ∃ r u, t.decode sizeof default bytes = (r, u) ∧ u.mem = bytes ∧ u.m_data + u.m_size = bytes.length ∧
      (∀ e ∈ u.trail, e.1 + e.2 = bytes.length) ∧
      ((∃ what, r = .error (.unpackError what)) ∨ ∃ v, r = .ok v ∧ t.content v ≤ u.m_data) := by
  have h := (t.codec_safe sizeof).get bytes 0 (Unpack.ofBytes bytes) ⟨Unpack.inside_ofBytes bytes, Nat.zero_le _⟩
  refine ⟨(t.decode sizeof default bytes).1, (t.decode sizeof default bytes).2, rfl, ?_⟩
  rw [Ty.decode]
  generalize exec ((t.codec sizeof).get default) (Unpack.ofBytes bytes) = o at h ⊢
  obtain ⟨r, u⟩ := o
  cases r with
  | error e =>
    obtain ⟨hin, what, rfl⟩ := h
    exact ⟨hin.input, hin.now, hin.always, Or.inl ⟨what, rfl⟩⟩
  | ok v =>
    obtain ⟨hin, hle⟩ := h
    have hcost : 0 + (1 + t.content v) ≤ u.m_data := hle
    refine ⟨hin.input, hin.now, hin.always, Or.inr ⟨v, rfl, ?_⟩⟩
    dsimp only
    omega

end CppBase.Packet
