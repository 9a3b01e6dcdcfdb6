import CppBase.Lib.Decimal
import CppBase.Spec.IntegerFormat

/-! What the blocks of digits in `u32toa` and `u64toa` write: the table has the digits
of the rest that is left of a number. -/

namespace CppBase.Utility.StrUtil

open CppBase.Lib

section Writing

def Cursor.write (b : Cursor) (l : List UInt8) : Cursor := l.foldl Cursor.put b

variable {b : Cursor} {l m : List UInt8} {c : UInt8} {k : ℕ}

theorem Cursor.write_write : (b.write l).write m = b.write (l ++ m) := List.foldl_append.symm

theorem Cursor.put_eq : b.put c = b.write [c] := rfl

theorem Cursor.putIf_eq {cond : Bool} : b.putIf cond c = b.write (if cond then [c] else []) := by
  cases cond <;> rfl

theorem Cursor.pos_write : (b.write l).pos = b.pos + l.length := by
  induction l generalizing b with
  | nil => rfl
  | cons c l ih =>
    rw [show b.write (c :: l) = (b.put c).write l from rfl, ih, List.length_cons, put]
    show b.pos + 1 + l.length = _
    omega

theorem Cursor.mem_write_lt (hk : k < b.pos) : (b.write l).mem k = b.mem k := by
  induction l generalizing b with
  | nil => rfl
  | cons c l ih =>
    rw [show b.write (c :: l) = (b.put c).write l from rfl, ih (Nat.lt_succ_of_lt hk)]
    exact Function.update_of_ne (Nat.ne_of_lt hk) _ _

theorem Cursor.mem_write_ge (hk : b.pos + l.length ≤ k) : (b.write l).mem k = b.mem k := by
  induction l generalizing b with
  | nil => rfl
  | cons c l ih =>
    rw [List.length_cons] at hk
    rw [show b.write (c :: l) = (b.put c).write l from rfl,
      ih (show b.pos + 1 + l.length ≤ k by omega)]
    exact Function.update_of_ne (by omega) _ _

theorem Cursor.mem_write (hk : k < l.length) : (b.write l).mem (b.pos + k) = l.getD k 0 := by
  induction l generalizing b k with
  | nil => cases hk
  | cons c l ih =>
    rw [show b.write (c :: l) = (b.put c).write l from rfl]
    cases k with
    | zero =>
      rw [mem_write_lt (Nat.lt_succ_self b.pos)]
      exact Function.update_self ..
    | succ k =>
      rw [List.getD_cons_succ, ← ih (b := b.put c) (Nat.lt_of_succ_lt_succ hk)]
      congr 1
      show b.pos + (k + 1) = b.pos + 1 + k
      omega

end Writing

section Table

variable {x : UInt32} {b : Cursor} {y : ℕ}

theorem cDigitsLut_pair : ∀ n < 100,
    cDigitsLut.getD (2 * n) 0 = digit (n / 10) ∧ cDigitsLut.getD (2 * n + 1) 0 = digit n := by
  decide +kernel

theorem lut_pair (hx : x.toNat < 100) :
    lut (x <<< 1) = digit (x.toNat / 10) ∧ lut (x <<< 1 + 1) = digit x.toNat := by
  have h1 : (1 : UInt32).toNat = 1 := rfl
  have h2 : (x <<< 1).toNat = 2 * x.toNat := by
    rw [UInt32.toNat_shiftLeft, Nat.shiftLeft_eq, h1]
    show x.toNat * 2 % 2 ^ 32 = _
    omega
  have h3 : (x <<< 1 + 1).toNat = 2 * x.toNat + 1 := by
    rw [UInt32.toNat_add, h2, h1]
    omega
  rw [lut, lut, h2, h3]
  exact cDigitsLut_pair x.toNat hx

/-- The table has the last four digits of `y` for the rest that is left of it. -/
theorem lut_four (hx : x.toNat = y % 10000) :
    (lut ((x / 100) <<< 1) = digit (y / 10 / 10 / 10) ∧ lut ((x / 100) <<< 1 + 1) = digit (y / 10 / 10)) ∧
      lut ((x % 100) <<< 1) = digit (y / 10) ∧ lut ((x % 100) <<< 1 + 1) = digit y := by
  have hdiv : (x / 100).toNat = y % 10000 / 100 := hx ▸ UInt32.toNat_div x 100
  have hmod : (x % 100).toNat = y % 10000 % 100 := hx ▸ UInt32.toNat_mod x 100
  obtain ⟨h1, h2⟩ := lut_pair (x := x / 100) (by omega)
  obtain ⟨h3, h4⟩ := lut_pair (x := x % 100) (by omega)
  rw [h1, h2, h3, h4, hdiv, hmod]
  exact ⟨⟨digit_congr (by omega), digit_congr (by omega)⟩, digit_congr (by omega), digit_congr (by omega)⟩

theorem put4_eq (hx : x.toNat = y % 10000) : put4 x b = b.write (fixed 4 y) := by
  obtain ⟨⟨h1, h2⟩, h3, h4⟩ := lut_four hx
  simp only [put4, h1, h2, h3, h4]
  rfl

variable {c1 c2 c3 : Bool}

theorem put4If_eq (hx : x.toNat = y % 10000) (h1 : c1 = decide (1 ≤ y / 10 / 10 / 10))
    (h2 : c2 = decide (1 ≤ y / 10 / 10)) (h3 : c3 = decide (1 ≤ y / 10)) (c4 : Bool) :
    put4If c1 c2 c3 c4 x b = b.write (lead 3 (y / 10) ++ if c4 then [digit y] else []) := by
  obtain ⟨⟨d1, d2⟩, d3, d4⟩ := lut_four hx
  simp only [put4If, d1, d2, d3, d4, Cursor.putIf_eq, Cursor.write_write, lead, h1, h2, h3, decide_eq_true_eq,
    List.append_assoc, List.nil_append]

theorem put4If_lead {c4 : Bool} (hx : x.toNat = y % 10000) (h1 : c1 = decide (1 ≤ y / 10 / 10 / 10))
    (h2 : c2 = decide (1 ≤ y / 10 / 10)) (h3 : c3 = decide (1 ≤ y / 10)) (h4 : c4 = decide (1 ≤ y)) :
    put4If c1 c2 c3 c4 x b = b.write (lead 4 y) := by
  rw [put4If_eq hx h1 h2 h3, h4, show lead 4 y = lead 3 (y / 10) ++ if 1 ≤ y then [digit y] else [] from rfl]
  simp only [decide_eq_true_eq]

/-- Without the zeros before it, a number of four digits is its numeral. -/
theorem put4If_numeral (hy : y < 10000) (hx : x.toNat = y) (h1 : c1 = decide (1 ≤ y / 10 / 10 / 10))
    (h2 : c2 = decide (1 ≤ y / 10 / 10)) (h3 : c3 = decide (1 ≤ y / 10)) :
    put4If c1 c2 c3 true x b = b.write (numeral y) := by
  rw [put4If_eq (by omega) h1 h2 h3, numeral_eq_lead (w := 3) (by omega)]
  rfl

theorem put8_eq {x' : UInt32} (hx : x.toNat = y / 10000 % 10000) (hx' : x'.toNat = y % 10000) :
    put4 x' (put4 x b) = b.write (fixed 8 y) := by
  rw [put4_eq hx, put4_eq hx', Cursor.write_write, fixed_append 4 4]
  rfl

theorem Cursor.write_numeral (w : ℕ) (h : 0 < y / 10 ^ w) :
    (b.write (numeral (y / 10 ^ w))).write (fixed w y) = b.write (numeral y) := by
  rw [write_write, ← numeral_append w h]

/-- `bbbbcccc` -/
theorem put8If_numeral (h : 10000 ≤ x.toNat) (hx : x.toNat < 100000000) (h1 : c1 = decide (10000000 ≤ x.toNat))
    (h2 : c2 = decide (1000000 ≤ x.toNat)) (h3 : c3 = decide (100000 ≤ x.toNat)) :
    put4 (x % 10000) (put4If c1 c2 c3 true (x / 10000) b) = b.write (numeral x.toNat) := by
  have hb : (x / 10000).toNat = x.toNat / 10 ^ 4 := UInt32.toNat_div ..
  rw [put4If_numeral (by omega) hb (h1.trans (decide_eq_decide.mpr (by omega)))
    (h2.trans (decide_eq_decide.mpr (by omega))) (h3.trans (decide_eq_decide.mpr (by omega))),
    put4_eq (UInt32.toNat_mod ..), Cursor.write_numeral 4 (by omega)]

theorem put2_eq (hx : x.toNat = y % 100) : put2 x b = b.write (fixed 2 y) := by
  obtain ⟨h1, h2⟩ := lut_pair (x := x) (by omega)
  rw [put2, h1, h2, hx, digit_congr (n := y % 100 / 10) (m := y / 10) (by omega),
    digit_congr (n := y % 100) (m := y) (by omega)]
  rfl

theorem putDigit_numeral (hx : x.toNat < 10) : putDigit x b = b.write (numeral x.toNat) := by
  have : 48 + x.toUInt8 = digit x.toNat := by
    apply UInt8.toNat_inj.mp
    rw [digit_toNat, UInt8.toNat_add, UInt32.toNat_toUInt8]
    show (48 + _) % _ = _
    omega
  rw [putDigit, this, Cursor.put_eq, numeral_of_lt hx]

theorem put2_numeral (h : 10 ≤ x.toNat) (hx : x.toNat < 100) : put2 x b = b.write (numeral x.toNat) := by
  rw [put2_eq (y := x.toNat) (by omega), numeral_eq_fixed 1 (by omega) (by omega)]

end Table

end CppBase.Utility.StrUtil
