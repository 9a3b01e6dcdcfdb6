import Mathlib.Analysis.SpecialFunctions.Trigonometric.Basic
import Mathlib.Analysis.Complex.Norm
import Mathlib.Analysis.SpecialFunctions.Trigonometric.Bounds

/-! Points of the unit circle in integers over a common denominator, with a bound of
the error. The error of a sum of two angles is about the sum of the errors, so the
points of many angles can be computed one from the other. -/

namespace CppBase.Lib

open Complex

/-- A point of the plane, in units of `1 / N`. -/
structure Point where
  re : ℤ
  im : ℤ

def Point.toComplex (p : Point) : ℂ := ⟨p.re, p.im⟩

/-- The point is `E` units at most from that of the angle. -/
def Near (N E : ℕ) (θ : ℝ) (p : Point) : Prop := ‖(N : ℂ) * exp (θ * I) - p.toComplex‖ ≤ E

/-- The product of two points, as a point. -/
def Point.turn (N : ℕ) (p q : Point) : Point :=
  ⟨(p.re * q.re - p.im * q.im) / N, (p.re * q.im + p.im * q.re) / N⟩

variable {N E F : ℕ} {θ φ : ℝ} {p q : Point}

theorem abs_div_sub_floor (hN : 0 < N) (a : ℤ) : |(a : ℝ) / N - (a / N : ℤ)| ≤ 1 := by
  have hpos : (0 : ℝ) < N := by exact_mod_cast hN
  have hsplit : (a : ℝ) = N * (a / N : ℤ) + (a % N : ℤ) := by exact_mod_cast (Int.mul_ediv_add_emod a N).symm
  have hle : (0 : ℝ) ≤ (a % N : ℤ) := by exact_mod_cast Int.emod_nonneg a (by omega)
  have hlt : ((a % N : ℤ) : ℝ) ≤ N := by exact_mod_cast (Int.emod_lt_of_pos a (by omega)).le
  have hrest : (a : ℝ) / N - (a / N : ℤ) = (a % N : ℤ) / N := by
    rw [div_sub' hpos.ne', div_left_inj' hpos.ne']
    linarith
  rw [hrest, abs_of_nonneg (div_nonneg hle hpos.le), div_le_one hpos]
  exact hlt

theorem Point.turn_near (hN : 0 < N) (p q : Point) :
    ‖p.toComplex * q.toComplex / N - (p.turn N q).toComplex‖ ≤ 2 := by
  have hre : (p.toComplex * q.toComplex / N - (p.turn N q).toComplex).re =
      ((p.re * q.re - p.im * q.im : ℤ) : ℝ) / N - ((p.re * q.re - p.im * q.im) / N : ℤ) := by
    simp [toComplex, turn, Complex.div_natCast_re]
  have him : (p.toComplex * q.toComplex / N - (p.turn N q).toComplex).im =
      ((p.re * q.im + p.im * q.re : ℤ) : ℝ) / N - ((p.re * q.im + p.im * q.re) / N : ℤ) := by
    simp [toComplex, turn, Complex.div_natCast_im]
  calc ‖p.toComplex * q.toComplex / N - (p.turn N q).toComplex‖
      ≤ _ := norm_le_abs_re_add_abs_im _
    _ ≤ 1 + 1 := by
      rw [hre, him]
      exact add_le_add (abs_div_sub_floor hN _) (abs_div_sub_floor hN _)
    _ = 2 := by norm_num

theorem norm_natCast_mul_exp (N : ℕ) (θ : ℝ) : ‖(N : ℂ) * exp (θ * I)‖ = N := by
  rw [norm_mul, norm_exp_ofReal_mul_I, mul_one, Complex.norm_natCast]

/-- The errors of two angles add up. -/
theorem Near.add (hN : 0 < N) (hEF : E * F ≤ N) (hp : Near N E θ p) (hq : Near N F φ q) :
    Near N (E + F + 3) (θ + φ) (p.turn N q) := by
  unfold Near at *
  have hpos : (0 : ℝ) < N := by exact_mod_cast hN
  have hEF' : (E : ℝ) * F ≤ N := by exact_mod_cast hEF
  set Z := (N : ℂ) * exp (θ * I)
  set W := (N : ℂ) * exp (φ * I)
  have hZ : ‖Z‖ = N := norm_natCast_mul_exp N θ
  have hW : ‖W‖ = N := norm_natCast_mul_exp N φ
  have hQ : ‖q.toComplex‖ ≤ N + F := by
    calc ‖q.toComplex‖ = ‖W - (W - q.toComplex)‖ := by rw [sub_sub_cancel]
      _ ≤ ‖W‖ + ‖W - q.toComplex‖ := norm_sub_le _ _
      _ ≤ N + F := by rw [hW]; exact add_le_add_right hq _
  have hprod : ‖Z * W - p.toComplex * q.toComplex‖ ≤ N * F + E * (N + F) := by
    calc ‖Z * W - p.toComplex * q.toComplex‖
        = ‖Z * (W - q.toComplex) + (Z - p.toComplex) * q.toComplex‖ := by congr 1; ring
      _ ≤ ‖Z‖ * ‖W - q.toComplex‖ + ‖Z - p.toComplex‖ * ‖q.toComplex‖ := by
        rw [← norm_mul, ← norm_mul]
        exact norm_add_le _ _
      _ ≤ N * F + E * (N + F) := by
        rw [hZ]
        gcongr
  have hsum : (N : ℂ) * exp ((θ + φ : ℝ) * I) = Z * W / N := by
    have hne : (N : ℂ) ≠ 0 := by exact_mod_cast hN.ne'
    rw [ofReal_add, add_mul, exp_add, eq_div_iff hne]
    ring
  have hscaled : ‖Z * W / N - p.toComplex * q.toComplex / N‖ ≤ E + F + 1 := by
    rw [← sub_div, norm_div, Complex.norm_natCast, div_le_iff₀ hpos]
    linarith
  calc ‖(N : ℂ) * exp ((θ + φ : ℝ) * I) - (p.turn N q).toComplex‖
      ≤ ‖Z * W / N - p.toComplex * q.toComplex / N‖ +
          ‖p.toComplex * q.toComplex / N - (p.turn N q).toComplex‖ := by
        rw [hsum]
        exact norm_sub_le_norm_sub_add_norm_sub _ _ _
    _ ≤ (E + F + 1) + 2 := add_le_add hscaled (Point.turn_near hN p q)
    _ = (E + F + 3 : ℕ) := by push_cast; ring

/-- Double the angle `k` times. -/
def Point.double (N : ℕ) (p : Point) : ℕ → Point
  | 0 => p
  | k + 1 => (p.double N k).turn N (p.double N k)

/-- The error that doubling leaves. -/
def doubled (E : ℕ) : ℕ → ℕ
  | 0 => E
  | k + 1 => doubled E k + doubled E k + 3

theorem Near.double (hN : 0 < N) (hp : Near N E θ p) {k : ℕ} (hk : ∀ j < k, doubled E j * doubled E j ≤ N) :
    Near N (doubled E k) (2 ^ k * θ) (p.double N k) := by
  induction k with
  | zero => simpa [doubled, Point.double] using hp
  | succ k ih =>
    have hstep := ih fun j hj => hk j (Nat.lt_succ_of_lt hj)
    have := hstep.add hN (hk k (Nat.lt_succ_self k)) hstep
    rwa [show (2 : ℝ) ^ k * θ + 2 ^ k * θ = 2 ^ (k + 1) * θ by ring] at this

def Point.multiple (N : ℕ) (p : Point) : ℕ → Point
  | 0 => p
  | k + 1 => (p.multiple N k).turn N p

theorem Near.multiple (hN : 0 < N) (hp : Near N E θ p) {k : ℕ}
    (hk : (k * (E + 3) + E) * E ≤ N) : Near N (k * (E + 3) + E) ((k + 1) * θ) (p.multiple N k) := by
  induction k with
  | zero => simpa [Point.multiple] using hp
  | succ k ih =>
    have hstep := ih (le_trans (Nat.mul_le_mul_right E (by nlinarith)) hk)
    have := hstep.add hN (le_trans (Nat.mul_le_mul_right E (by nlinarith)) hk) hp
    rw [show k * (E + 3) + E + E + 3 = (k + 1) * (E + 3) + E by ring,
      show ((k : ℝ) + 1) * θ + θ = ((k + 1 : ℕ) + 1) * θ by push_cast; ring] at this
    exact this

theorem Near.sin (hp : Near N E θ p) : |(N : ℝ) * Real.sin θ - p.im| ≤ E := by
  have him : ((N : ℂ) * exp (θ * I) - p.toComplex).im = N * Real.sin θ - p.im := by
    simp [Point.toComplex, exp_ofReal_mul_I_im]
  rw [← him]
  exact (abs_im_le_norm _).trans hp

/-- A point close to a small angle, from the first terms of the series. -/
theorem near_of_small {x : ℝ} (hx : |x| ≤ 1)
    (hre : |(N : ℝ) * (1 - x ^ 2 / 2) - p.re| + N * (|x| ^ 4 * (5 / 96)) ≤ E)
    (him : |(N : ℝ) * (x - x ^ 3 / 6) - p.im| + N * (|x| ^ 5 / 100) ≤ F) : Near N (E + F) x p := by
  have hcos : |(N : ℝ) * (Real.cos x - (1 - x ^ 2 / 2))| ≤ N * (|x| ^ 4 * (5 / 96)) := by
    rw [abs_mul, Nat.abs_cast]
    exact mul_le_mul_of_nonneg_left (Real.cos_bound hx) (Nat.cast_nonneg N)
  have hsin : |(N : ℝ) * (Real.sin x - (x - x ^ 3 / 6))| ≤ N * (|x| ^ 5 / 100) := by
    rw [abs_mul, Nat.abs_cast]
    exact mul_le_mul_of_nonneg_left (Real.sin_bound hx) (Nat.cast_nonneg N)
  have hre' : ((N : ℂ) * exp (x * I) - p.toComplex).re =
      (N * (1 - x ^ 2 / 2) - p.re) + N * (Real.cos x - (1 - x ^ 2 / 2)) := by
    simp [Point.toComplex, exp_ofReal_mul_I_re]
    ring
  have him' : ((N : ℂ) * exp (x * I) - p.toComplex).im =
      (N * (x - x ^ 3 / 6) - p.im) + N * (Real.sin x - (x - x ^ 3 / 6)) := by
    simp [Point.toComplex, exp_ofReal_mul_I_im]
    ring
  calc ‖(N : ℂ) * exp (x * I) - p.toComplex‖
      ≤ _ := norm_le_abs_re_add_abs_im _
    _ ≤ E + F := by
      rw [hre', him']
      exact add_le_add ((abs_add_le _ _).trans ((add_le_add_right hcos _).trans hre))
        ((abs_add_le _ _).trans ((add_le_add_right hsin _).trans him))
    _ = (E + F : ℕ) := by push_cast; rfl

/-- The integer part of a multiple of the sine, where the error leaves no doubt. -/
theorem Near.floor_sin (hN : 0 < N) (hp : Near N E θ p) {M c : ℕ} (hlow : c * N + M * E ≤ M * |p.im|)
    (hhigh : M * |p.im| + M * E < (c + 1) * N) : ⌊(M : ℝ) * |Real.sin θ|⌋₊ = c := by
  have hpos : (0 : ℝ) < N := by exact_mod_cast hN
  have hM : (0 : ℝ) ≤ M := Nat.cast_nonneg M
  have hlow' : (c : ℝ) * N + M * E ≤ M * |(p.im : ℝ)| := by exact_mod_cast hlow
  have hhigh' : (M : ℝ) * |(p.im : ℝ)| + M * E < (c + 1) * N := by exact_mod_cast hhigh
  have hdist : abs (N * |Real.sin θ| - |(p.im : ℝ)|) ≤ E := by
    calc abs (N * |Real.sin θ| - |(p.im : ℝ)|) = abs (|N * Real.sin θ| - |(p.im : ℝ)|) := by
          rw [abs_mul, Nat.abs_cast]
      _ ≤ |N * Real.sin θ - p.im| := abs_abs_sub_abs_le_abs_sub _ _
      _ ≤ E := hp.sin
  obtain ⟨h1, h2⟩ := abs_le.mp hdist
  rw [Nat.floor_eq_iff (by positivity)]
  constructor
  · refine le_of_mul_le_mul_right ?_ hpos
    nlinarith
  · refine lt_of_mul_lt_mul_right ?_ hpos.le
    nlinarith

end CppBase.Lib
