import CppBase.Lib.Bytes
import Mathlib.Algebra.Group.Nat.Defs
import Mathlib.Data.Int.Notation
import Mathlib.Data.List.Induction
import Mathlib.Data.Nat.Digits.Defs

/-! Decimal numerals in ASCII: the canonical one, its digits in a fixed width, and the
digits that are left when leading zeros are not written. -/

namespace CppBase.Lib

def digit (n : ℕ) : UInt8 := UInt8.ofNat (48 + n % 10)

def numeral (n : ℕ) : List UInt8 := (Nat.toDigits 10 n).map fun c => UInt8.ofNat c.toNat

def readNat (l : List UInt8) : ℕ := l.foldl (fun n c => 10 * n + (c.toNat - 48)) 0

def intNumeral (x : ℤ) : List UInt8 := if x < 0 then 45 :: numeral x.natAbs else numeral x.natAbs

def readInt (l : List UInt8) : ℤ := if l.head? = some 45 then -(readNat l.tail : ℤ) else readNat l

/-- The last `w` digits. -/
def fixed : ℕ → ℕ → List UInt8
  | 0, _ => []
  | w + 1, n => fixed w (n / 10) ++ [digit n]

/-- The last `w` digits without leading zeros. -/
def lead : ℕ → ℕ → List UInt8
  | 0, _ => []
  | w + 1, n => lead w (n / 10) ++ if 1 ≤ n then [digit n] else []

variable {n a r w : ℕ}

section Numerals

theorem digitChar_eq (h : n < 10) : UInt8.ofNat n.digitChar.toNat = digit n := by
  revert n
  decide

theorem digit_mod (n : ℕ) : digit (n % 10) = digit n := by
  rw [digit, digit, Nat.mod_mod]

theorem digit_congr {m : ℕ} (h : n % 10 = m % 10) : digit n = digit m := by
  rw [digit, digit, h]

theorem numeral_of_lt (h : n < 10) : numeral n = [digit n] := by
  rw [numeral, Nat.toDigits_of_lt_base h, List.map_singleton, digitChar_eq h]

theorem numeral_of_ge (h : 10 ≤ n) : numeral n = numeral (n / 10) ++ [digit n] := by
  rw [numeral, Nat.toDigits_of_base_le (by decide) h, List.map_append, List.map_singleton,
    digitChar_eq (Nat.mod_lt n (by decide)), digit_mod]
  rfl

/-- Induction along the numeral. -/
theorem numeral_induction {P : ℕ → Prop} (single : ∀ n < 10, P n) (more : ∀ n, 10 ≤ n → P (n / 10) → P n) :
    ∀ n, P n := by
  intro n
  induction n using Nat.strongRecOn with
  | ind n ih =>
    by_cases h : n < 10
    · exact single n h
    · exact more n (by omega) (ih (n / 10) (by omega))

theorem digit_toNat (n : ℕ) : (digit n).toNat = 48 + n % 10 := by
  rw [digit, UInt8.toNat_ofNat']
  omega

theorem readNat_concat (l : List UInt8) (c : UInt8) : readNat (l ++ [c]) = 10 * readNat l + (c.toNat - 48) := by
  simp [readNat]

theorem readNat_numeral (n : ℕ) : readNat (numeral n) = n := by
  induction n using numeral_induction with
  | single n h =>
    rw [numeral_of_lt h, ← List.nil_append [digit n], readNat_concat, digit_toNat]
    show 10 * 0 + _ = _
    omega
  | more n h ih =>
    rw [numeral_of_ge h, readNat_concat, ih, digit_toNat]
    omega

/-- A numeral is made of digits, and begins with zero only if it is zero. -/
structure Digits (l : List UInt8) : Prop where
  ne_nil : l ≠ []
  digits : ∀ c ∈ l, 48 ≤ c ∧ c ≤ 57
  leading : l.head? = some 48 → l = [48]

theorem digit_range (n : ℕ) : 48 ≤ digit n ∧ digit n ≤ 57 := by
  rw [UInt8.le_iff_toNat_le, UInt8.le_iff_toNat_le, digit_toNat]
  exact ⟨Nat.le_add_right 48 _, Nat.add_le_add_left (Nat.le_of_lt_succ (Nat.mod_lt n (by decide))) 48⟩

theorem head_numeral (h : 0 < n) : (numeral n).head? ≠ some 48 := by
  induction n using numeral_induction with
  | single n hn =>
    rw [numeral_of_lt hn]
    intro heq
    have := congrArg UInt8.toNat (Option.some.inj heq)
    rw [digit_toNat] at this
    have h48 : (48 : UInt8).toNat = 48 := rfl
    omega
  | more n hn ih =>
    rw [numeral_of_ge hn, List.head?_append]
    have hne : (numeral (n / 10)).head? ≠ none := by simp [numeral]
    obtain ⟨c, hc⟩ := Option.ne_none_iff_exists'.mp hne
    rw [hc, Option.some_or, ← hc]
    exact ih (by omega)

theorem digits_numeral (n : ℕ) : Digits (numeral n) := by
  refine ⟨by simp [numeral], ?_, fun h => ?_⟩
  · induction n using numeral_induction with
    | single n hn => simpa [numeral_of_lt hn] using digit_range n
    | more n hn ih =>
      rw [numeral_of_ge hn, List.forall_mem_append]
      exact ⟨ih, by simpa using digit_range n⟩
  · obtain rfl | hn := Nat.eq_zero_or_pos n
    · rfl
    · exact absurd h (head_numeral hn)

theorem Digits.no_minus {l : List UInt8} (h : Digits l) : l.head? ≠ some 45 := fun heq =>
  absurd (h.digits 45 (List.mem_of_mem_head? heq)).1 (by decide)

theorem readInt_intNumeral (x : ℤ) : readInt (intNumeral x) = x := by
  unfold intNumeral readInt
  split_ifs with hneg hhead hminus
  · rw [List.tail_cons, readNat_numeral]
    omega
  · exact absurd rfl hhead
  · exact absurd hminus (digits_numeral _).no_minus
  · rw [readNat_numeral]
    omega

/-- There is no other numeral of the same number. -/
theorem Digits.eq_numeral {l : List UInt8} (h : Digits l) : l = numeral (readNat l) := by
  induction l using List.reverseRecOn with
  | nil => exact absurd rfl h.ne_nil
  | append_singleton l c ih =>
    obtain ⟨hc, hc'⟩ := h.digits c (by simp)
    rw [UInt8.le_iff_toNat_le] at hc hc'
    change 48 ≤ c.toNat at hc
    change c.toNat ≤ 57 at hc'
    have hdigit : ∀ n, n % 10 = c.toNat - 48 → digit n = c := fun n hn =>
      UInt8.toNat_inj.mp (by rw [digit_toNat]; omega)
    rw [readNat_concat]
    obtain rfl | hne := eq_or_ne l []
    · rw [numeral_of_lt (by simp [readNat]; omega), hdigit _ (by simp [readNat]; omega)]
      rfl
    · have hhead : l.head? ≠ some 48 := by
        intro hhead
        have := h.leading (by rw [List.head?_append, hhead]; rfl)
        have := congrArg List.length this
        rw [List.length_append, List.length_singleton] at this
        exact hne (List.eq_nil_of_length_eq_zero (by simpa using this))
      have hl : Digits l := ⟨hne, fun b hb => h.digits b (List.mem_append_left _ hb), fun h48 => absurd h48 hhead⟩
      have hpos : 0 < readNat l := Nat.pos_of_ne_zero fun h0 => hhead (by rw [ih hl, h0]; rfl)
      rw [numeral_of_ge (by omega), hdigit _ (by omega),
        show (10 * readNat l + (c.toNat - 48)) / 10 = readNat l by omega, ← ih hl]

/-- The canonical numeral of an integer: a sign if it is negative, no leading zeros, and
the value. -/
structure Canonical (x : ℤ) (l : List UInt8) : Prop where
  sign : l.head? = some 45 ↔ x < 0
  digits : Digits (if x < 0 then l.tail else l)
  value : readInt l = x

theorem canonical_iff (x : ℤ) (l : List UInt8) : Canonical x l ↔ l = intNumeral x := by
  constructor
  · intro h
    have hvalue := h.value
    have hdigits := h.digits
    unfold readInt at hvalue
    unfold intNumeral
    by_cases hneg : x < 0
    · have hhead := h.sign.mpr hneg
      rw [if_pos hhead] at hvalue
      rw [if_pos hneg] at hdigits ⊢
      obtain ⟨t, rfl⟩ := List.head?_eq_some_iff.mp hhead
      rw [List.tail_cons] at hvalue hdigits
      rw [show x.natAbs = readNat t by omega, ← hdigits.eq_numeral]
    · rw [if_neg fun hhead => hneg (h.sign.mp hhead)] at hvalue
      rw [if_neg hneg] at hdigits ⊢
      rw [show x.natAbs = readNat l by omega, ← hdigits.eq_numeral]
  · rintro rfl
    refine ⟨?_, ?_, readInt_intNumeral x⟩
    · unfold intNumeral
      split_ifs with hneg
      · simp [hneg]
      · simp [hneg, (digits_numeral x.natAbs).no_minus]
    · unfold intNumeral
      split_ifs
      · exact digits_numeral _
      · exact digits_numeral _

theorem length_numeral_le (hw : 0 < w) (hn : n < 10 ^ w) : (numeral n).length ≤ w := by
  rw [numeral, List.length_map]
  exact Nat.toDigits_length 10 n w hw hn

end Numerals

section Widths

theorem fixed_append (v w n : ℕ) : fixed (v + w) n = fixed v (n / 10 ^ w) ++ fixed w n := by
  induction w generalizing n with
  | zero => simp [fixed]
  | succ w ih =>
    rw [← Nat.add_assoc, fixed, ih, fixed, List.append_assoc, Nat.div_div_eq_div_mul, ← Nat.pow_succ']

/-- The numeral is that of the leading part with the other digits behind it. -/
theorem numeral_append (w : ℕ) (h : 0 < n / 10 ^ w) : numeral n = numeral (n / 10 ^ w) ++ fixed w n := by
  induction w generalizing n with
  | zero => simp [fixed]
  | succ w ih =>
    rw [Nat.pow_succ', ← Nat.div_div_eq_div_mul] at h ⊢
    have hten : 10 ≤ n := by
      by_contra hlt
      rw [Nat.div_eq_of_lt (Nat.not_le.mp hlt), Nat.zero_div] at h
      exact Nat.lt_irrefl 0 h
    rw [numeral_of_ge hten, ih h, fixed, List.append_assoc]

theorem numeral_eq_fixed (w : ℕ) (h : 0 < n / 10 ^ w) (h' : n / 10 ^ w < 10) : numeral n = fixed (1 + w) n := by
  rw [numeral_append w h, numeral_of_lt h', fixed_append]
  rfl

theorem lead_zero (w : ℕ) : lead w 0 = [] := by
  induction w with
  | zero => rfl
  | succ w ih => simp [lead, ih]

theorem lead_append (v w n : ℕ) : lead (v + w) n = lead v (n / 10 ^ w) ++ lead w n := by
  induction w generalizing n with
  | zero => simp [lead]
  | succ w ih => rw [← Nat.add_assoc, lead, ih, lead, List.append_assoc, Nat.div_div_eq_div_mul, ← Nat.pow_succ']

/-- The numeral is what is left of the digits; the last one is always written. -/
theorem numeral_eq_lead (hn : n / 10 < 10 ^ w) : numeral n = lead w (n / 10) ++ [digit n] := by
  induction w generalizing n with
  | zero => exact numeral_of_lt (by rw [Nat.pow_zero] at hn; omega)
  | succ w ih =>
    by_cases hlt : n < 10
    · rw [numeral_of_lt hlt, Nat.div_eq_of_lt hlt, lead_zero, List.nil_append]
    · rw [numeral_of_ge (by omega), ih (by rw [Nat.pow_succ] at hn; omega), lead, if_pos (by omega)]

theorem numeral_eq_lead_of_pos (h : 1 ≤ n) (hn : n / 10 < 10 ^ w) : numeral n = lead (w + 1) n := by
  rw [numeral_eq_lead hn, lead, if_pos h]

end Widths

end CppBase.Lib
