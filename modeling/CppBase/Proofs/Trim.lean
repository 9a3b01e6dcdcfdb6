import CppBase.Spec.StrUtil
import Mathlib.Data.List.DropRight
import Mathlib.Data.List.GetD

/-! The two `trim`. Both go in from the two ends; the one of mediaproc_lib ends on
the last character and not behind it, and takes a single character for none. -/

namespace CppBase.Utility.StrUtil

variable {p : UInt8 → Bool}

/-- The string without whitespace at its ends. -/
def trimmed (p : UInt8 → Bool) (str : List UInt8) : List UInt8 := (str.dropWhile p).rdropWhile p

section Ends

/-- A string as whitespace, what is left of it and whitespace again. -/
structure Core (p : UInt8 → Bool) (str u m w : List UInt8) : Prop where
  split : str = u ++ (m ++ w)
  left : u = str.takeWhile p
  right : ∀ c ∈ w, p c = true
  first : ∀ c ∈ m.head?, p c = false
  last : ∀ c ∈ m.getLast?, p c = false
  blank : m = [] → w = []

theorem head_dropWhile {str : List UInt8} : ∀ c ∈ (str.dropWhile p).head?, p c = false := by
  induction str with
  | nil => simp
  | cons a str ih =>
    by_cases ha : p a = true
    · rwa [List.dropWhile_cons_of_pos ha]
    · rw [List.dropWhile_cons_of_neg ha]
      simpa using ha

theorem exists_core (p : UInt8 → Bool) (str : List UInt8) : ∃ u w, Core p str u (trimmed p str) w := by
  have hsplit : trimmed p str ++ (str.dropWhile p).rtakeWhile p = str.dropWhile p :=
    List.rdropWhile_append_rtakeWhile ..
  have hfirst : ∀ c ∈ (trimmed p str ++ (str.dropWhile p).rtakeWhile p).head?, p c = false := by
    rw [hsplit]
    exact head_dropWhile
  have hright : ∀ c ∈ (str.dropWhile p).rtakeWhile p, p c = true := fun c => List.mem_rtakeWhile_imp
  refine ⟨str.takeWhile p, (str.dropWhile p).rtakeWhile p, ?_, rfl, hright, ?_, ?_, ?_⟩
  · rw [hsplit, List.takeWhile_append_dropWhile]
  · intro c hc
    exact hfirst c (by rw [List.head?_append, hc]; rfl)
  · intro c hc
    have hne : trimmed p str ≠ [] := fun h => by rw [h] at hc; cases hc
    rw [List.getLast?_eq_getLast_of_ne_nil hne] at hc
    cases hc
    exact Bool.eq_false_iff.mpr (List.rdropWhile_last_not p _ hne)
  · -- whitespace only: nothing is left to drop from the right
    intro hnil
    cases hw : (str.dropWhile p).rtakeWhile p with
    | nil => rfl
    | cons c w =>
      have hno := hfirst c (by rw [hnil, hw]; rfl)
      rw [hright c (hw ▸ List.mem_cons_self)] at hno
      cases hno

end Ends

section Loops

variable {str u m w : List UInt8} {charAt : ℕ → UInt8} {s e r fuel : ℕ}

theorem skipUp_eq (hfuel : str.length ≤ s + fuel) :
    skipUp p str fuel s = s + ((str.drop s).takeWhile p).length := by
  induction fuel generalizing s with
  | zero =>
    rw [skipUp, List.drop_eq_nil_of_le (Nat.add_zero s ▸ hfuel)]
    rfl
  | succ fuel ih =>
    by_cases hlt : s < str.length
    · rw [skipUp, if_pos hlt, List.drop_eq_getElem_cons hlt, List.getElem_eq_getD 0]
      by_cases hp : p (str.getD s 0) = true
      · rw [if_neg (by rw [hp]; decide), ih (by omega), List.takeWhile_cons_of_pos hp, List.length_cons]
        omega
      · rw [if_pos (by rw [Bool.eq_false_iff.mpr hp]; rfl), List.takeWhile_cons_of_neg hp]
        rfl
    · rw [skipUp, if_neg hlt, List.drop_eq_nil_of_le (Nat.not_lt.mp hlt)]
      rfl

theorem skipDown_stays (h : e ≤ s) : skipDown p charAt s e = e := by
  cases e with
  | zero => rfl
  | succ e => rw [skipDown, if_neg (Nat.not_lt.mpr h)]

theorem skipDown_eq (hsr : s ≤ r) (hre : r ≤ e) (hstop : s < r → p (charAt r) = false)
    (hspace : ∀ k, r < k → k ≤ e → p (charAt k) = true) : skipDown p charAt s e = r := by
  induction e with
  | zero => exact (Nat.le_zero.mp hre).symm
  | succ e ih =>
    obtain rfl | hlt := Nat.eq_or_lt_of_le hre
    · obtain rfl | hs := Nat.eq_or_lt_of_le hsr
      · exact skipDown_stays (Nat.le_refl _)
      · rw [skipDown, if_pos hs, if_pos (by simp [hstop hs])]
    · rw [skipDown, if_pos (by omega), if_neg (by simp [hspace (e + 1) hlt (Nat.le_refl _)])]
      exact ih (Nat.le_of_lt_succ hlt) fun k hk hke => hspace k hk (Nat.le_succ_of_le hke)

theorem Core.skipUp (h : Core p str u m w) : skipUp p str str.length 0 = u.length := by
  rw [skipUp_eq (by omega), h.left, List.drop_zero, Nat.zero_add]

theorem Core.length (h : Core p str u m w) : str.length = u.length + m.length + w.length := by
  rw [h.split, List.length_append, List.length_append, Nat.add_assoc]

theorem Core.space (h : Core p str u m w) {k : ℕ} (hk : u.length + m.length ≤ k) (hlt : k < str.length) :
    p (str.getD k 0) = true := by
  rw [h.length] at hlt
  rw [h.split, ← List.append_assoc, List.getD_append_right _ _ _ _ (by simpa using hk)]
  have hlt' : k - (u ++ m).length < w.length := by
    rw [List.length_append]
    omega
  rw [← List.getElem_eq_getD (h := hlt')]
  exact h.right _ (List.getElem_mem hlt')

theorem Core.stop (h : Core p str u m w) (hm : m ≠ []) : p (str.getD (u.length + m.length - 1) 0) = false := by
  have hpos : 0 < m.length := List.length_pos_iff.mpr hm
  rw [h.split, List.getD_append_right _ _ _ _ (by omega), List.getD_append _ _ _ _ (by omega)]
  refine h.last _ ?_
  rw [show u.length + m.length - 1 - u.length = m.length - 1 by omega, List.getLast?_eq_getElem?,
    List.getElem?_eq_getElem (by omega), List.getElem_eq_getD 0]
  rfl

theorem Core.substr (h : Core p str u m w) : substr str u.length m.length = m := by
  rw [StrUtil.substr, h.split, List.drop_left, List.take_left]

end Loops

section Results

variable {str u m w : List UInt8}

theorem Core.trim_eq (h : Core p str u m w) : trim p str = m := by
  have hlen := h.length
  cases str with
  | nil =>
    rw [List.length_nil] at hlen
    exact (List.eq_nil_of_length_eq_zero (by omega)).symm
  | cons c str =>
    have hdown : skipDown p (fun e => (c :: str).getD (e - 1) 0) u.length (c :: str).length =
        u.length + m.length := by
      refine skipDown_eq (Nat.le_add_right _ _) (by omega) (fun hlt => h.stop ?_) fun k hk hke =>
        h.space (by omega) (by omega)
      exact List.length_pos_iff.mp (by omega)
    simp only [trim, List.isEmpty_cons, Bool.false_eq_true, if_false, h.skipUp, hdown, Nat.add_sub_cancel_left]
    split_ifs with hm
    · exact h.substr
    · exact (List.eq_nil_of_length_eq_zero (by omega)).symm

/-- The end of mediaproc_lib is where one character is left at least. -/
theorem Core.mediaproc_trim_eq (h : Core p str u m w) :
    Mediaproc.StrUtil.trim p str = if m.length = 1 then [] else m := by
  have hlen := h.length
  cases str with
  | nil =>
    rw [List.length_nil] at hlen
    rw [List.eq_nil_of_length_eq_zero (l := m) (by omega)]
    rfl
  | cons c str =>
    simp only [Mediaproc.StrUtil.trim, List.isEmpty_cons, Bool.false_eq_true, if_false, h.skipUp]
    by_cases hm : m = []
    · have hw : w.length = 0 := by rw [h.blank hm, List.length_nil]
      have hm' : m.length = 0 := by rw [hm, List.length_nil]
      rw [skipDown_stays (by omega), if_neg (by omega), hm]
      rfl
    · have hpos : 0 < m.length := List.length_pos_iff.mpr hm
      have hdown : skipDown p (fun e => (c :: str).getD e 0) u.length ((c :: str).length - 1) =
          u.length + m.length - 1 :=
        skipDown_eq (by omega) (by omega) (fun _ => h.stop hm) fun k hk hke => h.space (by omega) (by omega)
      rw [hdown]
      by_cases hone : m.length = 1
      · rw [if_neg (by omega), if_pos hone]
      · have hlast : u.length + m.length - 1 - u.length + 1 = m.length := by omega
        rw [if_pos (by omega), if_neg hone, hlast, h.substr]

/-- One character is left exactly when one is not whitespace. -/
theorem Core.length_one_iff (h : Core p str u m w) : m.length = 1 ↔ str.countP (fun c => !p c) = 1 := by
  have hu : u.countP (fun c => !p c) = 0 := by
    rw [List.countP_eq_zero, h.left]
    intro c hc
    simpa using List.mem_takeWhile_imp hc
  have hw : w.countP (fun c => !p c) = 0 := by
    rw [List.countP_eq_zero]
    intro c hc
    simpa using h.right c hc
  rw [h.split, List.countP_append, List.countP_append, hu, hw, Nat.zero_add, Nat.add_zero]
  cases m with
  | nil => simp
  | cons a m =>
    have ha : p a = false := h.first a rfl
    obtain rfl | ⟨m, b, rfl⟩ := List.eq_nil_or_concat' m
    · simp [ha]
    · have hb : p b = false := h.last b (by rw [← List.cons_append]; exact List.getLast?_concat)
      simp [ha, hb]

end Results

/-- Both `trim` leave the string without whitespace at its ends exactly when it does not
have one single character that is not whitespace; then they agree. -/
theorem trims_agree_iff (isspace : UInt8 → Bool) (str : List UInt8) :
    (trim isspace str = trimmed isspace str ∧ Mediaproc.StrUtil.trim isspace str = trimmed isspace str ∧
        trim isspace str = Mediaproc.StrUtil.trim isspace str) ↔
      str.countP (fun c => !isspace c) ≠ 1 := by
  obtain ⟨u, w, h⟩ := exists_core isspace str
  rw [h.trim_eq, h.mediaproc_trim_eq, ne_eq, ← h.length_one_iff]
  by_cases hone : (trimmed isspace str).length = 1
  · have hne : trimmed isspace str ≠ [] := List.length_pos_iff.mp (by omega)
    simp [hone, hne.symm]
  · simp [hone]

theorem mediaproc_trim_single :
    trim (· == 32) [32, 97, 32] = [97] ∧ Mediaproc.StrUtil.trim (· == 32) [32, 97, 32] = [] := by
  decide

end CppBase.Utility.StrUtil
