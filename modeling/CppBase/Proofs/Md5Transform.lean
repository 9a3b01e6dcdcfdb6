import CppBase.Lib.SineTable
import CppBase.Sanity.Md5Memory

/-! `transform` is the compression of RFC 1321, its constants included: each is the
integer part of a sine. -/

namespace CppBase.CenterConfig.MD5

open CppBase.Lib

section Constants

/-- The unit circle in parts of `2 ^ 96`. -/
def scale : ℕ := 2 ^ 96

/-- A point close to the angle `2 ^ (-16)`. -/
def smallAngle : Point := ⟨2 ^ 96 - 2 ^ 63, 2 ^ 80 - 46912496118443⟩

theorem near_smallAngle : Near scale 223696871 (1 / 2 ^ 16) smallAngle := by
  refine near_of_small (E := 223696214) (F := 657) ?_ ?_ ?_
  · rw [abs_of_nonneg (by positivity)]
    norm_num
  · norm_num [scale, smallAngle]
  · norm_num [scale, smallAngle, abs_le]

def radian : Point := smallAngle.double scale 16

/-- The error that is left at one radian. -/
def slack : ℕ := doubled 223696871 16

theorem near_radian : Near scale slack 1 radian := by
  have := near_smallAngle.double (k := 16) (by decide) (by decide +kernel)
  rwa [mul_one_div_cancel (by positivity)] at this

theorem near_multiple {k : ℕ} (hk : k < 64) :
    Near scale (k * (slack + 3) + slack) (k + 1 : ℕ) (radian.multiple scale k) := by
  have hslack : (k * (slack + 3) + slack) * slack ≤ scale :=
    le_trans (Nat.mul_le_mul_right _ (Nat.add_le_add_right (Nat.mul_le_mul_right _ (Nat.le_of_lt_succ hk)) _))
      (by decide +kernel)
  have := near_radian.multiple (by decide) hslack
  rw [mul_one] at this
  exact_mod_cast this

def stepAt (k : ℕ) : Step := steps.getD k ⟨.f1, .a, .b, .c, .d, 0, 0, 0⟩

theorem constant_bounds : ∀ k < 64,
    ((stepAt k).d.toNat * scale + (4294967296 : ℕ) * (k * (slack + 3) + slack : ℕ) : ℤ) ≤
        (4294967296 : ℕ) * |(radian.multiple scale k).im| ∧
      ((4294967296 : ℕ) * |(radian.multiple scale k).im| + (4294967296 : ℕ) * (k * (slack + 3) + slack : ℕ) : ℤ) <
        ((stepAt k).d.toNat + 1) * scale := by
  decide +kernel

/-- The constants are the table of the RFC. -/
theorem constant_eq {k : ℕ} (hk : k < 64) : Md5.T (k + 1) = (stepAt k).d := by
  obtain ⟨hlow, hhigh⟩ := constant_bounds k hk
  rw [Md5.T, (near_multiple hk).floor_sin (by decide) hlow hhigh, UInt32.ofNat_toNat]

end Constants

section Functions

theorem F1_eq (x y z : UInt32) : F1 x y z = Md5.F x y z := by
  apply UInt32.toBitVec_inj.mp
  ext i
  simp only [F1, Md5.F, UInt32.toBitVec_xor, UInt32.toBitVec_and, UInt32.toBitVec_or, UInt32.toBitVec_not,
    BitVec.getElem_xor, BitVec.getElem_and, BitVec.getElem_or, BitVec.getElem_not]
  cases x.toBitVec[i] <;> cases y.toBitVec[i] <;> cases z.toBitVec[i] <;> rfl

theorem F2_eq (x y z : UInt32) : F2 x y z = Md5.G x y z := by
  apply UInt32.toBitVec_inj.mp
  ext i
  simp only [F2, F1, Md5.G, UInt32.toBitVec_xor, UInt32.toBitVec_and, UInt32.toBitVec_or, UInt32.toBitVec_not,
    BitVec.getElem_xor, BitVec.getElem_and, BitVec.getElem_or, BitVec.getElem_not]
  cases x.toBitVec[i] <;> cases y.toBitVec[i] <;> cases z.toBitVec[i] <;> rfl

end Functions

section Steps

/-- The register that is written in the step `k`; the others follow it. -/
def written (k : ℕ) : Reg := [.a, .d, .c, .b].getD (k % 4) .a

/-- The registers in the places of the RFC before the step `k`. -/
def places (k : ℕ) (r : Words) : Md5.State :=
  ⟨get r (written k), get r (written (k + 3)), get r (written (k + 2)), get r (written (k + 1))⟩

def fnAt (k : ℕ) : Fn := if k < 16 then .f1 else if k < 32 then .f2 else if k < 48 then .f3 else .f4

theorem stepAt_eq : ∀ k < 64, stepAt k =
    ⟨fnAt k, written k, written (k + 3), written (k + 2), written (k + 1), Md5.index k, (stepAt k).d,
      Md5.shift k⟩ := by
  decide +kernel

theorem fnAt_eval (k : ℕ) : (fnAt k).eval = Md5.function k := by
  unfold fnAt Md5.function
  split_ifs
  · exact funext fun x => funext fun y => funext fun z => F1_eq x y z
  · exact funext fun x => funext fun y => funext fun z => F2_eq x y z
  · rfl
  · rfl

theorem get_set (r : Words) (w x : Reg) (v : UInt32) : get (set r w v) x = if x = w then v else get r x := by
  cases w <;> cases x <;> rfl

theorem written_add_four (k : ℕ) : written (k + 4) = written k := by
  rw [written, written, Nat.add_mod_right]

theorem written_ne (k : ℕ) :
    written (k + 1) ≠ written k ∧ written (k + 2) ≠ written k ∧ written (k + 3) ≠ written k := by
  have hmod : ∀ j, written (k + j) = written (k % 4 + j) := fun j => by
    rw [written, written, Nat.mod_add_mod]
  have hall : ∀ i < 4, written (i + 1) ≠ written (i + 0) ∧ written (i + 2) ≠ written (i + 0) ∧
      written (i + 3) ≠ written (i + 0) := by decide
  rw [hmod 1, hmod 2, hmod 3, ← Nat.add_zero k, hmod 0, Nat.add_zero]
  exact hall (k % 4) (Nat.mod_lt k (by decide))

theorem places_step (sin : ℕ → UInt32) (r : Words) {k : ℕ} (hk : k < 64) :
    places (k + 1) (md5Step sin r (stepAt k)) = Md5.operation sin (places k r) k := by
  obtain ⟨h1, h2, h3⟩ := written_ne k
  rw [md5Step, stepAt_eq k hk]
  simp only [places, Md5.operation, get_set, written_add_four, if_neg h1, if_neg h2, if_neg h3, if_true, fnAt_eval,
    constant_eq hk]
  apply Md5.State.ext
  · rfl
  · rw [UInt32.add_comm, Md5.rotateLeft]
    simp only [UInt32.add_assoc]
  · rfl
  · rfl

/-- Before the step `n`, the registers stand in the places of the RFC. -/
theorem places_steps (sin : ℕ → UInt32) (r : Words) {n : ℕ} (hn : n ≤ 64) :
    places n ((steps.take n).foldl (md5Step sin) r) = (List.range n).foldl (Md5.operation sin) (places 0 r) := by
  induction n with
  | zero => rfl
  | succ n ih =>
    have hlen : n < steps.length := Nat.lt_of_lt_of_le (Nat.lt_of_succ_le hn) (by decide)
    have hstep : steps.take (n + 1) = steps.take n ++ [stepAt n] := by
      rw [List.take_add_one, List.getElem?_eq_getElem hlen, stepAt, ← List.getElem_eq_getD (h := hlen)]
      rfl
    rw [hstep, List.foldl_append, List.foldl_cons, List.foldl_nil, places_step sin _ (Nat.lt_of_succ_le hn),
      ih (Nat.le_of_succ_le hn), List.range_succ, List.foldl_append]
    rfl

def toState (r : Words) : Md5.State := ⟨r.a, r.b, r.c, r.d⟩

theorem places_zero (r : Words) : places 0 r = toState r := rfl

theorem places_last (r : Words) : places 64 r = toState r := rfl

theorem transform_eq (str : Words) (sin : ℕ → UInt32) :
    toState (transform str sin) = Md5.compress (toState str) sin := by
  have hrun := places_steps sin str (Nat.le_refl 64)
  rw [List.take_of_length_le (by decide), places_zero, places_last] at hrun
  rw [Md5.compress, ← hrun, transform]
  generalize steps.foldl (md5Step sin) str = r
  rfl

end Steps

end CppBase.CenterConfig.MD5
