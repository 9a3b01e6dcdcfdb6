import CppBase.Sanity.PacketMessages
import Mathlib.Data.List.GetD

/-! What `operator>>` leaves of the value its target held. Scalars and strings are assigned. A vector is
returned as it is when the count is zero; else it is resized, and each element that was there is the
target for the one that is read. Sets and maps are inserted into without being cleared. -/

namespace CppBase.Packet

open CppBase.Lib

/-- Two runs both throw or both end with the same value. -/
def SameOutcome {α : Type} : Except Fault α → Except Fault α → Prop
  | .ok a, .ok b => a = b
  | .error _, .error _ => True
  | _, _ => False

instance {α : Type} [DecidableEq α] (x y : Except Fault α) : Decidable (SameOutcome x y) := by
  unfold SameOutcome
  split <;> infer_instance

/-- Reading the bytes into targets that hold `v` and `w`. -/
def Ty.Agree (sizeof : Ty → ℕ) (t : Ty) (bytes : List UInt8) (v w : t.Val) : Prop :=
  SameOutcome (t.decode sizeof v bytes).1 (t.decode sizeof w bytes).1

section Replacing

/-- Where `v` and `w` differ, the message replaces what they hold. A set and a map must have for each key
the same element in both, or none in one and in the other the element that the message has for the key. -/
def Ty.Replaces : (t : Ty) → t.Msg → t.Val → t.Val → Prop
  | .bool | .uint8 | .uint16 | .uint32 | .uint64 | .string => fun _ _ _ => True
  | .pair a b => fun (x : a.Msg × b.Msg) (v w : a.Val ×ₗ b.Val) =>
    a.Replaces x.1 (ofLex v).1 (ofLex w).1 ∧ b.Replaces x.2 (ofLex v).2 (ofLex w).2
  | .vector t => fun (xs : List t.Msg) (v w : List t.Val) =>
    (xs.length = 0 → v = w) ∧ ∀ i (h : i < xs.length), t.Replaces xs[i] (v.getD i default) (w.getD i default)
  | .set t => fun (xs : List t.Msg) (v w : Keyed (id : t.Val → t.Val)) => Keyed.SameBut (xs.map t.value) v w
  | .map k u => fun (xs : List (k.Msg × u.Msg)) (v w : Keyed fun p : k.Val ×ₗ u.Val => (ofLex p).1) =>
    Keyed.SameBut (xs.map fun x => toLex (k.value x.1, u.value x.2)) v w

theorem getElem_resize {α : Type} {n i : ℕ} {d : α} {v : List α} (hi : i < (Codec.resize n d v).length) :
    (Codec.resize n d v)[i] = v.getD i d := by
  have hlt : i < n := by rwa [Codec.length_resize] at hi
  by_cases hv : i < v.length
  · rw [List.getD_eq_getElem _ _ hv]
    simp [Codec.resize, hlt, hv]
  · rw [List.getD_eq_default _ _ (not_lt.mp hv)]
    simp [Codec.resize, List.getElem_append, hlt, hv]

theorem storeVector_inj {α μ : Type} [Inhabited α] {store : μ → α → α} {xs : List μ} {v w : List α} :
    Codec.Speaks.storeVector store xs v = Codec.Speaks.storeVector store xs w ↔
      (xs.length = 0 → v = w) ∧
        ∀ i (h : i < xs.length), store xs[i] (v.getD i default) = store xs[i] (w.getD i default) := by
  rw [Codec.Speaks.storeVector, Codec.Speaks.storeVector]
  by_cases hlen : xs.length = 0
  · simp [hlen]
  rw [if_neg hlen, if_neg hlen, List.ext_getElem_iff]
  simp only [List.length_zipWith, Codec.length_resize, Nat.min_self, List.getElem_zipWith, getElem_resize, hlen]
  simp

/-- Two variables hold the same afterwards exactly if the message replaces where they differ. -/
theorem Ty.store_inj {t : Ty} {x : t.Msg} {v w : t.Val} : t.store x v = t.store x w ↔ t.Replaces x v w := by
  induction t with
  | bool => exact iff_of_true rfl trivial
  | uint8 => exact iff_of_true rfl trivial
  | uint16 => exact iff_of_true rfl trivial
  | uint32 => exact iff_of_true rfl trivial
  | uint64 => exact iff_of_true rfl trivial
  | string => exact iff_of_true rfl trivial
  | pair a b iha ihb =>
    refine toLex.injective.eq_iff.trans (Prod.mk.injEq .. ▸ ?_)
    exact and_congr iha ihb
  | vector t ih =>
    refine storeVector_inj.trans (and_congr_right fun _ => ?_)
    exact forall₂_congr fun i hi => ih
  | set t _ =>
    refine Keyed.foldl_insert_inj.trans (iff_of_eq ?_)
    exact congrArg (Keyed.SameBut · v w) (List.map_congr_left fun y _ => t.store_default y)
  | map k u _ _ =>
    refine Keyed.foldl_insert_inj.trans (iff_of_eq ?_)
    refine congrArg (Keyed.SameBut · v w) (List.map_congr_left fun y _ => ?_)
    rw [k.store_default, u.store_default]

end Replacing

/-- An element of the previous message survives an empty vector or set, and a key of
the previous message keeps its value against the one that was sent. -/
theorem prior_survives :
    ¬ (Ty.vector .uint8).Agree (fun _ => 1) [0, 0, 0, 0] ([] : List UInt8) ([1] : List UInt8) ∧
    ¬ (Ty.set .uint8).Agree (fun _ => 1) [0, 0, 0, 0] default ⟨[(1 : UInt8)], List.pairwise_singleton _ _⟩ ∧
    ¬ (Ty.map .uint8 .uint8).Agree (fun _ => 1) [1, 0, 0, 0, 5, 6] default
      ⟨[toLex ((5 : UInt8), (9 : UInt8))], List.pairwise_singleton _ _⟩ := by
  unfold Ty.Agree
  decide +kernel

section Decoding

variable {sizeof : Ty → ℕ} {t : Ty} {bytes : List UInt8}

theorem Ty.decode_holds {x : t.Msg} (h : t.Holds sizeof bytes x) (v : t.Val) :
    (t.decode sizeof v bytes).1 = .ok (t.store x v) := by
  obtain ⟨rest, rfl, hpass⟩ := h
  obtain ⟨u, hu, -⟩ := ((t.codec_speaks sizeof).get v).reads _ _ rest x (Unpack.at_ofBytes _) hpass
  rw [Ty.decode, hu]

theorem Ty.holds_of_decode {v a : t.Val} (h : (t.decode sizeof v bytes).1 = .ok a) : ∃ x, t.Holds sizeof bytes x := by
  have hexec : exec ((t.codec sizeof).get v) (Unpack.ofBytes bytes) = (.ok a, (t.decode sizeof v bytes).2) :=
    Prod.ext h rfl
  obtain ⟨x, rest, heq, hpass, -, -⟩ := ((t.codec_speaks sizeof).get v).only _ _ _ _ a (Unpack.at_ofBytes bytes) hexec
  exact ⟨x, rest, heq, hpass⟩

/-- Where no message is, reading throws, whatever the target held. -/
theorem Ty.decode_throws (h : ∀ x, ¬ t.Holds sizeof bytes x) (v : t.Val) :
    ∃ e, (t.decode sizeof v bytes).1 = .error e := by
  cases hv : (t.decode sizeof v bytes).1 with
  | error e => exact ⟨e, rfl⟩
  | ok a =>
    obtain ⟨x, hx⟩ := Ty.holds_of_decode hv
    exact absurd hx (h x)

end Decoding

/-- Two targets end alike exactly if the message that the bytes hold, if they hold one, replaces all that
was different in them. -/
theorem decode_agrees_iff (sizeof : Ty → ℕ) (t : Ty) (bytes : List UInt8) (v w : t.Val) :
    t.Agree sizeof bytes v w ↔ ∀ x, t.Holds sizeof bytes x → t.Replaces x v w := by
  constructor
  · intro h x hx
    rw [Ty.Agree, Ty.decode_holds hx, Ty.decode_holds hx] at h
    exact Ty.store_inj.mp h
  · intro h
    by_cases hmsg : ∃ x, t.Holds sizeof bytes x
    · obtain ⟨x, hx⟩ := hmsg
      rw [Ty.Agree, Ty.decode_holds hx, Ty.decode_holds hx]
      exact Ty.store_inj.mpr (h x hx)
    · obtain ⟨e, he⟩ := Ty.decode_throws (not_exists.mp hmsg) v
      obtain ⟨e', he'⟩ := Ty.decode_throws (not_exists.mp hmsg) w
      rw [Ty.Agree, he, he']
      trivial

/-- A non-zero count replaces the numbers of a vector, but not the sets in it. -/
example : (Ty.vector .uint8).Agree (fun _ => 1) [1, 0, 0, 0, 9] ([] : List UInt8) ([1] : List UInt8) ∧
    ¬ (Ty.vector (.set .uint8)).Agree (fun _ => 1) [1, 0, 0, 0, 1, 0, 0, 0, 5]
      ([] : List (Keyed (id : UInt8 → UInt8))) [⟨[(9 : UInt8)], List.pairwise_singleton _ _⟩] := by
  unfold Ty.Agree
  decide +kernel

end CppBase.Packet
