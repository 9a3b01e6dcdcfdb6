import CppBase.Sanity.PackEffects
import CppBase.Sanity.UnpackEffects
import CppBase.Spec.Codec

/-! What `operator<<` writes, `operator>>` reads back: for each template from the
element types to the container, and so for every type of the grammar. -/

namespace CppBase.Packet

open CppBase.Lib

def wireContainer {α : Type} (wire : α → List UInt8) (xs : List α) : List UInt8 :=
  leBytes 4 xs.length ++ xs.flatMap wire

def Ty.wire : (t : Ty) → t.Val → List UInt8
  | .bool => fun v : Bool => leBytes 1 v.toNat
  | .uint8 => fun v : UInt8 => leBytes 1 v.toNat
  | .uint16 => fun v : UInt16 => leBytes 2 v.toNat
  | .uint32 => fun v : UInt32 => leBytes 4 v.toNat
  | .uint64 => fun v : UInt64 => leBytes 8 v.toNat
  | .string => fun v : List UInt8 => leBytes 2 v.length ++ v
  | .pair a b => fun v : a.Val ×ₗ b.Val => a.wire (ofLex v).1 ++ b.wire (ofLex v).2
  | .vector t => fun v : List t.Val => wireContainer t.wire v
  | .set t => fun v : Keyed (id : t.Val → t.Val) => wireContainer t.wire v.toList
  | .map k v => fun m : Keyed fun p : k.Val ×ₗ v.Val => (ofLex p).1 =>
    wireContainer (fun p => k.wire (ofLex p).1 ++ v.wire (ofLex p).2) m.toList

def Ty.isScalar : Ty → Bool
  | .bool | .uint8 | .uint16 | .uint32 | .uint64 => true
  | _ => false

/-- How many elements of the type a vector may have to get past `marshal_count_check`. -/
def Ty.CountFits (sizeof : Ty → ℕ) (t : Ty) (count : ℕ) : Prop :=
  t.isScalar = false → count * sizeof t ≤ 128 * 1024 * 1024

/-- The values whose parts are within the limits of the format. -/
def Ty.Fits (sizeof : Ty → ℕ) : (t : Ty) → t.Val → Prop
  | .bool | .uint8 | .uint16 | .uint32 | .uint64 => fun _ => True
  | .string => fun v : List UInt8 => v.length ≤ 65535
  | .pair a b => fun v : a.Val ×ₗ b.Val => a.Fits sizeof (ofLex v).1 ∧ b.Fits sizeof (ofLex v).2
  | .vector t => fun v : List t.Val =>
    v.length < 2 ^ 32 ∧ t.CountFits sizeof v.length ∧ ∀ x ∈ v, t.Fits sizeof x
  | .set t => fun v : Keyed (id : t.Val → t.Val) => v.toList.length < 2 ^ 32 ∧ ∀ x ∈ v.toList, t.Fits sizeof x
  | .map k v => fun m : Keyed fun p : k.Val ×ₗ v.Val => (ofLex p).1 =>
    m.toList.length < 2 ^ 32 ∧ ∀ p ∈ m.toList, k.Fits sizeof (ofLex p).1 ∧ v.Fits sizeof (ofLex p).2

/-- The codec keeps to a format: on the values that fit it writes the format and
reads it back into a new variable, and the count check lets such elements pass. -/
structure Codec.Faithful {α : Type} [Inhabited α] (c : Codec α) (fits : α → Prop) (countFits : ℕ → Prop)
    (wire : α → List UInt8) : Prop where
  put : ∀ v, fits v → Appends (c.put v) (wire v)
  get : ∀ v, fits v → Reads (2 ^ 32) (c.get default) (wire v) v
  check : ∀ vs : List α, (∀ v ∈ vs, fits v) → countFits vs.length → ∀ count size : UInt32,
    count.toNat = vs.length → (vs.flatMap wire).length ≤ size.toNat → c.countCheck count size = pure ()

section Checks

variable {α : Type} {wire : α → List UInt8}

theorem length_flatMap_const {width : ℕ} {vs : List α} (h : ∀ v, (wire v).length = width) :
    (vs.flatMap wire).length = vs.length * width := by
  simp [List.length_flatMap, h]

theorem countCheckScalar_pass {width : ℕ} (name : String) {vs : List α} (h : ∀ v, (wire v).length = width)
    {count size : UInt32} (hcount : count.toNat = vs.length) (hsize : (vs.flatMap wire).length ≤ size.toNat) :
    countCheckScalar name width count size = pure () := by
  rw [length_flatMap_const h] at hsize
  unfold countCheckScalar
  rw [hcount, if_neg (not_lt.mpr hsize)]

theorem countCheckUnknown_pass {sizeof : ℕ} {count : UInt32} (size : UInt32)
    (h : count.toNat * sizeof ≤ 128 * 1024 * 1024) : countCheckUnknown sizeof count size = pure () := by
  unfold countCheckUnknown
  rw [if_neg (not_lt.mpr ((Nat.mod_le _ _).trans h))]

end Checks

namespace Codec.Faithful

variable {α β κ : Type} [Inhabited α] [Inhabited β] {c : Codec α} {d : Codec β} {fits : α → Prop} {fits' : β → Prop}
  {countFits countFits' : ℕ → Prop} {wire : α → List UInt8} {wire' : β → List UInt8}

theorem weaken {countFits₁ : ℕ → Prop} (hc : c.Faithful fits countFits wire)
    (h : ∀ count, countFits₁ count → countFits count) : c.Faithful fits countFits₁ wire :=
  ⟨hc.put, hc.get, fun vs hvs hcount => hc.check vs hvs (h _ hcount)⟩

theorem pair (sizeof : ℕ) (hc : c.Faithful fits countFits wire) (hd : d.Faithful fits' countFits' wire') :
    (Codec.pair sizeof c d).Faithful (fun p => fits (ofLex p).1 ∧ fits' (ofLex p).2)
      (fun count => count * sizeof ≤ 128 * 1024 * 1024) fun p => wire (ofLex p).1 ++ wire' (ofLex p).2 where
  put p hp := (hc.put _ hp.1).seq (hd.put _ hp.2)
  get p hp := (hc.get _ hp.1).bind ((hd.get _ hp.2).bind_nil (reads_pure _ _))
  check vs _ hfits count size hcount _ := countCheckUnknown_pass size (by rwa [hcount])

theorem putAll (hc : c.Faithful fits countFits wire) {vs : List α} (hvs : ∀ v ∈ vs, fits v) :
    Appends (c.putAll vs) (vs.flatMap wire) := by
  induction vs with
  | nil => exact appends_pure
  | cons v vs ih => exact (hc.put v (hvs v (by simp))).seq (ih fun x hx => hvs x (by simp [hx]))

theorem putContainer (hc : c.Faithful fits countFits wire) {vs : List α} (hvs : ∀ v ∈ vs, fits v)
    (hlen : vs.length < 2 ^ 32) : Appends (c.putContainer vs) (wireContainer wire vs) := by
  refine Appends.seq ?_ (hc.putAll hvs)
  rw [pushUint32, toNat_uint32 hlen]
  exact appends_push _

theorem reads_count {k : ℕ} (h : k < 2 ^ 32) : Reads (2 ^ 32) popUint32 (leBytes 4 k) (UInt32.ofNat k) := by
  have hr := reads_popUint32 (2 ^ 32) (UInt32.ofNat k)
  rwa [toNat_uint32 h] at hr

theorem getEach (hc : c.Faithful fits countFits wire) {vs : List α} (hvs : ∀ v ∈ vs, fits v) :
    Reads (2 ^ 32) (c.getEach (List.replicate vs.length default)) (vs.flatMap wire) vs := by
  induction vs with
  | nil => exact reads_pure _ _
  | cons v vs ih =>
    have htail := ih fun x hx => hvs x (by simp [hx])
    exact (hc.get v (hvs v (by simp))).bind (htail.bind_nil (reads_pure _ _))

theorem vector (sizeof : ℕ) (hc : c.Faithful fits countFits wire) :
    (Codec.vector sizeof c).Faithful (fun v => v.length < 2 ^ 32 ∧ countFits v.length ∧ ∀ x ∈ v, fits x)
      (fun count => count * sizeof ≤ 128 * 1024 * 1024) (wireContainer wire) where
  put v hv := hc.putContainer hv.2.2 hv.1
  get v hv := by
    obtain ⟨hlen, hcount, hvs⟩ := hv
    refine (reads_count hlen).bind ?_
    by_cases hzero : UInt32.ofNat v.length = 0
    · have hnil : v = [] := by
        have h := toNat_uint32 hlen
        rw [hzero] at h
        exact List.length_eq_zero_iff.mp h.symm
      subst hnil
      rw [if_pos hzero]
      exact reads_pure _ _
    · rw [if_neg hzero]
      intro s mem rest hat hn
      -- the size the check is given is that of the elements and the rest
      have hsize : (v.flatMap wire).length ≤ (UInt32.ofNat s.m_size).toNat := by
        rw [hat.size, toNat_uint32 hn, List.length_append]
        omega
      have hcheck := hc.check v hvs hcount (UInt32.ofNat v.length) (UInt32.ofNat s.m_size) (toNat_uint32 hlen) hsize
      have hresize : resize (UInt32.ofNat v.length).toNat default (default : List α) =
          List.replicate v.length default := by
        rw [toNat_uint32 hlen]
        exact Codec.resize_nil _ _
      rw [exec_bind_ok (exec_gets Unpack.m_size s), hcheck, exec_bind_ok (exec_pure () s), hresize]
      exact hc.getEach hvs s mem rest hat hn
  check vs _ hfits count size hcount _ := countCheckUnknown_pass size (by rwa [hcount])

variable [LinearOrder κ] {key : α → κ}

theorem getInsert (hc : c.Faithful fits countFits wire) {vs : List α} (hvs : ∀ v ∈ vs, fits v) (s : Keyed key) :
    Reads (2 ^ 32) (c.getInsert vs.length s) (vs.flatMap wire) (vs.foldl (fun s a => s.insert a) s) := by
  induction vs generalizing s with
  | nil => exact reads_pure _ _
  | cons v vs ih => exact (hc.get v (hvs v (by simp))).bind (ih (fun x hx => hvs x (by simp [hx])) (s.insert v))

theorem keyed (sizeof : ℕ) (key : α → κ) (hc : c.Faithful fits countFits wire) :
    (Codec.keyed sizeof key c).Faithful (fun s => s.toList.length < 2 ^ 32 ∧ ∀ x ∈ s.toList, fits x)
      (fun count => count * sizeof ≤ 128 * 1024 * 1024) fun s => wireContainer wire s.toList where
  put s hs := hc.putContainer hs.2 hs.1
  get s hs := by
    refine (reads_count hs.1).bind ?_
    have h := hc.getInsert hs.2 (default : Keyed key)
    rwa [Keyed.foldl_insert (t := s) rfl, ← toNat_uint32 hs.1] at h
  check vs _ hfits count size hcount _ := countCheckUnknown_pass size (by rwa [hcount])

end Codec.Faithful

/-- The codec of every type keeps to the wire format. -/
theorem Ty.codec_faithful (sizeof : Ty → ℕ) (t : Ty) :
    (t.codec sizeof).Faithful (t.Fits sizeof) (t.CountFits sizeof) t.wire := by
  induction t with
  | bool =>
    refine ⟨fun v _ => ?_, fun (v : Bool) _ => ?_, fun vs _ _ count size hc hs => ?_⟩
    · cases v <;> exact appends_push _
    · have h := (reads_popUint8 (2 ^ 32) (if v then 1 else 0)).map fun x => if x = 0 then false else true
      cases v <;> exact h
    · exact countCheckScalar_pass "bool" (fun _ => length_leBytes _ _) hc hs
  | uint8 =>
    exact ⟨fun v _ => appends_push _, fun v _ => reads_popUint8 _ v, fun vs _ _ count size hc hs =>
      countCheckScalar_pass "uint8_t" (fun _ => length_leBytes _ _) hc hs⟩
  | uint16 =>
    exact ⟨fun v _ => appends_push _, fun v _ => reads_popUint16 _ v, fun vs _ _ count size hc hs =>
      countCheckScalar_pass "uint16_t" (fun _ => length_leBytes _ _) hc hs⟩
  | uint32 =>
    exact ⟨fun v _ => appends_push _, fun v _ => reads_popUint32 _ v, fun vs _ _ count size hc hs =>
      countCheckScalar_pass "uint32_t" (fun _ => length_leBytes _ _) hc hs⟩
  | uint64 =>
    exact ⟨fun v _ => appends_push _, fun v _ => reads_popUint64 _ v, fun vs _ _ count size hc hs =>
      countCheckScalar_pass "uint64_t" (fun _ => length_leBytes _ _) hc hs⟩
  | string =>
    exact ⟨fun v hv => appends_pushVarstr hv, fun v hv => reads_popVarstr _ hv, fun vs _ hf count size hc _ =>
      countCheckUnknown_pass size (by rw [hc]; exact hf rfl)⟩
  | pair a b iha ihb => exact (iha.pair (sizeof (.pair a b)) ihb).weaken fun _ h => h rfl
  | vector t ih => exact (ih.vector (sizeof (.vector t))).weaken fun _ h => h rfl
  | set t ih => exact (ih.keyed (sizeof (.set t)) id).weaken fun _ h => h rfl
  | map k v ihk ihv =>
    exact ((ihk.pair (sizeof (.pair k v)) ihv).keyed (sizeof (.map k v)) _).weaken fun _ h => h rfl

/-- Round trip: what fits is written in the wire format without an exception, and
reading the bytes written, followed by anything, into a new variable gives it back
and stops where the rest begins. -/
theorem decode_encode (sizeof : Ty → ℕ) (t : Ty) (v : t.Val) (hv : t.Fits sizeof v) :
    (∀ p : Pack, ∃ q, exec ((t.codec sizeof).put v) p = (.ok (), q) ∧
      q.contents = p.contents ++ (t.wire v).map some) ∧
    ∀ rest : List UInt8, (t.wire v ++ rest).length < 2 ^ 32 →
      ∃ u, t.decode sizeof default (t.wire v ++ rest) = (.ok v, u) ∧ u.mem = t.wire v ++ rest ∧
        u.m_data = (t.wire v).length ∧ u.m_size = rest.length := by
  have hc := t.codec_faithful sizeof
  refine ⟨hc.put v hv, fun rest hlen => ?_⟩
  obtain ⟨u, hu, hat⟩ := hc.get v hv _ _ rest (Unpack.at_ofBytes _) hlen
  have hin := hat.inside
  have hsize := hat.size
  rw [List.length_append] at hin
  exact ⟨u, hu, hat.input, by omega, hsize⟩

theorem decode_encode_map :
    ∃ u, (Ty.map .string (.vector .uint16)).decode (fun _ => 32) default
        [1, 0, 0, 0, 1, 0, 97, 2, 0, 0, 0, 1, 0, 1, 2, 255] =
          (.ok ⟨[toLex ([97], ([1, 513] : List UInt16))], List.pairwise_singleton _ _⟩, u) ∧ u.m_data = 15 ∧ u.m_size = 1 := by
  have hfits : (Ty.map .string (.vector .uint16)).Fits (fun _ => 32)
      ⟨[toLex ([97], ([1, 513] : List UInt16))], List.pairwise_singleton _ _⟩ := by
    refine ⟨by decide, fun p hp => ?_⟩
    rw [List.mem_singleton] at hp
    subst hp
    exact ⟨show [97].length ≤ 65535 by decide, by decide, fun h => absurd h (by decide), fun _ _ => trivial⟩
  obtain ⟨u, hu, -, hdata, hsize⟩ := (decode_encode _ _ _ hfits).2 [255] (by decide)
  exact ⟨u, hu, hdata, hsize⟩

end CppBase.Packet
