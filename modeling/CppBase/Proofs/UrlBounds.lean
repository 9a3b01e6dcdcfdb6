import Mathlib.Order.Nat
import CppBase.Sanity.UrlPieces

/-! `UrlDecode` reads the two characters behind a `%` without looking whether the
string has ended. Only a `%` that is the last character takes it past the
terminator. -/

namespace CppBase.Utility.UrlCodec

/-- Characters, and `%` with two characters behind it. -/
inductive Whole : List UInt8 → Prop
  | nil : Whole []
  | char {c : UInt8} {rest : List UInt8} : c ≠ 37 → Whole rest → Whole (c :: rest)
  | escape {h l : UInt8} {rest : List UInt8} : Whole rest → Whole (37 :: h :: l :: rest)

/-- The string ends in a `%` that is not one of the two behind another `%`. -/
def LonePercent (s : List UInt8) : Prop := ∃ pre, Whole pre ∧ s = pre ++ [37]

section Strings

variable {c h l : UInt8} {rest : List UInt8}

theorem not_lonePercent_nil : ¬ LonePercent [] := by
  rintro ⟨pre, -, heq⟩
  simp at heq

theorem lonePercent_char (hc : c ≠ 37) : LonePercent (c :: rest) ↔ LonePercent rest := by
  constructor
  · rintro ⟨pre, hpre, heq⟩
    cases hpre with
    | nil => exact absurd (List.cons.inj heq).1 hc
    | char _ hpre => exact ⟨_, hpre, (List.cons.inj heq).2⟩
    | escape hpre => exact absurd (List.cons.inj heq).1 hc
  · rintro ⟨pre, hpre, rfl⟩
    exact ⟨c :: pre, hpre.char hc, rfl⟩

theorem lonePercent_escape : LonePercent (37 :: h :: l :: rest) ↔ LonePercent rest := by
  constructor
  · rintro ⟨pre, hpre, heq⟩
    cases hpre with
    | nil => cases (List.cons.inj heq).2
    | char hc _ => exact absurd (List.cons.inj heq).1.symm hc
    | escape hpre =>
      obtain ⟨-, -, heq⟩ : _ ∧ _ ∧ rest = _ := by simpa using heq
      exact ⟨_, hpre, heq⟩
  · rintro ⟨pre, hpre, rfl⟩
    exact ⟨37 :: h :: l :: pre, hpre.escape, rfl⟩

theorem lonePercent_lone : LonePercent [37] := ⟨[], .nil, rfl⟩

theorem not_lonePercent_half : ¬ LonePercent [37, h] := by
  rintro ⟨pre, hpre, heq⟩
  cases hpre with
  | nil => simp at heq
  | char hc _ => exact absurd (List.cons.inj heq).1.symm hc
  | escape hpre => simp at heq

end Strings

section Loop

variable {sIn : ℕ → UInt8} {len ix fuel : ℕ} {s : List UInt8}

theorem length_urlDecodeLoop (fuel ix : ℕ) : (urlDecodeLoop sIn len fuel ix).1.length ≤ fuel := by
  induction fuel generalizing ix with
  | zero => exact le_rfl
  | succ fuel ih =>
    rw [urlDecodeLoop]
    split
    · split
      · exact Nat.succ_le_succ (ih _)
      · exact Nat.succ_le_succ (ih _)
    · exact Nat.zero_le _

/-- The indices stay inside exactly if no lone `%` stands at the end. -/
theorem urlDecodeLoop_reads_iff (s : List UInt8) (hfuel : s.length ≤ fuel) (hs : Stands sIn len ix s) :
    (∀ k ∈ (urlDecodeLoop sIn len fuel ix).2, k ≤ len) ↔ ¬ LonePercent s := by
  induction s using pieces generalizing ix fuel with
  | nil =>
    rw [urlDecodeLoop_nil hs]
    simp [not_lonePercent_nil]
  | char c rest hc ih =>
    obtain ⟨fuel, rfl, hrest⟩ := exists_fuel hfuel
    have hin : ix ≤ len := Nat.le_of_lt hs.head.1
    rw [urlDecodeLoop_char hs hc, List.forall_mem_cons, lonePercent_char hc, ← ih hrest hs.tail]
    exact and_iff_right hin
  | escape h l rest ih =>
    obtain ⟨fuel, rfl, hrest⟩ := exists_fuel hfuel
    have hin : ix + 2 < len := hs.tail.tail.head.1
    have hfuel' : rest.length ≤ fuel := by
      simp only [List.length_cons] at hrest
      omega
    rw [urlDecodeLoop_escape hs, lonePercent_escape, ← ih hfuel' hs.tail.tail.tail]
    simp only [List.forall_mem_cons]
    exact ⟨fun h => h.2.2.2, fun h => ⟨by omega, by omega, by omega, h⟩⟩
  | lone =>
    obtain ⟨fuel, rfl, -⟩ := exists_fuel hfuel
    have hend : ix + 1 = len := hs.ends
    rw [urlDecodeLoop_percent hs]
    -- the second character behind it is the one after the terminator
    refine iff_of_false (fun hall => ?_) (not_not.mpr lonePercent_lone)
    have hread : ix + 2 ≤ len := hall (ix + 2) (by simp)
    omega
  | half h =>
    obtain ⟨fuel, rfl, -⟩ := exists_fuel hfuel
    have hend : ix + 2 = len := hs.ends
    rw [urlDecodeLoop_percent hs, urlDecodeLoop_end (show len ≤ ix + 3 by omega)]
    refine iff_of_true ?_ not_lonePercent_half
    simp only [List.forall_mem_cons, List.not_mem_nil, false_imp_iff, implies_true, and_true]
    omega

end Loop

/-- `UrlDecode` stays inside its input exactly if the string does not end in a lone `%`. -/
theorem url_decode_inside_iff (s : CString) (beyond : ℕ → UInt8) :
    (∀ k ∈ urlDecodeReads s beyond, k ≤ s.bytes.length) ∧ (urlDecode s beyond).length ≤ s.bytes.length ↔
      ¬ LonePercent s.bytes := by
  rw [urlDecodeReads, urlDecodeLoop_reads_iff s.bytes le_rfl (s.stands beyond)]
  exact and_iff_left (length_urlDecodeLoop _ _)

/-- A percent sign that nobody escaped, at the end of a text. -/
theorem url_decode_reads_past_end :
    let s : CString := ⟨ascii "100%", by decide⟩
    ∃ k ∈ urlDecodeReads s fun _ => 0, s.bytes.length < k := by
  decide +kernel

end CppBase.Utility.UrlCodec
