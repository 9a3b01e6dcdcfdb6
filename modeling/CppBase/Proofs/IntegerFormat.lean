import CppBase.Sanity.DigitBlocks
import Mathlib.Algebra.Group.Int.Defs

/-! The integers are written as their canonical numerals. -/

namespace CppBase.Utility.StrUtil

open CppBase.Lib

section Unsigned

theorem u32toa_eq (value : UInt32) (b : Cursor) : u32toa value b = b.write (numeral value.toNat) := by
  have hlt : value.toNat < 2 ^ 32 := value.toNat_lt
  simp only [u32toa, ge_iff_le, UInt32.lt_iff_toNat_lt, UInt32.le_iff_toNat_le, UInt32.reduceToNat,
    UInt32.toNat_div]
  split_ifs with h4 h8 ha
  · exact put4If_numeral h4 rfl (decide_eq_decide.mpr (by omega)) (decide_eq_decide.mpr (by omega))
      (decide_eq_decide.mpr (by omega))
  · exact put8If_numeral (by omega) h8 rfl rfl rfl
  all_goals
    have hb : (value % 100000000 / 10000).toNat = value.toNat / 10000 % 10000 := by
      simp only [UInt32.toNat_div, UInt32.toNat_mod, UInt32.reduceToNat]
      omega
    have hc : (value % 100000000 % 10000).toNat = value.toNat % 10000 := by
      simp only [UInt32.toNat_mod, UInt32.reduceToNat]
      omega
    have ha' : (value / 100000000).toNat = value.toNat / 10 ^ 8 := UInt32.toNat_div ..
    rw [put8_eq hb hc, ← Cursor.write_numeral 8 (by omega), ← ha']
  · rw [put2_numeral (by omega) (by omega)]
  · rw [putDigit_numeral (by omega)]

theorem kTens : kTen8.toNat = 10 ^ 8 ∧ kTen9.toNat = 10 ^ 9 ∧ kTen10.toNat = 10 ^ 10 ∧ kTen11.toNat = 10 ^ 11 ∧
    kTen12.toNat = 10 ^ 12 ∧ kTen13.toNat = 10 ^ 13 ∧ kTen14.toNat = 10 ^ 14 ∧ kTen15.toNat = 10 ^ 15 ∧
    kTen16.toNat = 10 ^ 16 := by
  decide

variable {value : UInt64} {n : ℕ} {b : Cursor}

theorem put8_rest {v1 : UInt32} (h1 : v1.toNat = n % 10 ^ 8) :
    put4 (v1 % 10000) (put4 (v1 / 10000) b) = b.write (fixed 8 n) := by
  have hb : (v1 / 10000).toNat = v1.toNat / 10000 := UInt32.toNat_div ..
  have hc : (v1 % 10000).toNat = v1.toNat % 10000 := UInt32.toNat_mod ..
  exact put8_eq (by omega) (by omega)

theorem putLeading {a : UInt32} (ha : a.toNat < 10000) :
    (if a < 10 then putDigit a b
      else if a < 100 then put2 a b
      else if a < 1000 then put2 (a % 100) (putDigit (a / 100) b)
      else put2 (a % 100) (put2 (a / 100) b)) = b.write (numeral a.toNat) := by
  have hdiv : (a / 100).toNat = a.toNat / 10 ^ 2 := UInt32.toNat_div ..
  have hmod : (a % 100).toNat = a.toNat % 100 := UInt32.toNat_mod ..
  simp only [UInt32.lt_iff_toNat_lt, UInt32.reduceToNat]
  split_ifs with h1 h2 h3
  · exact putDigit_numeral h1
  · exact put2_numeral (by omega) h2
  · rw [putDigit_numeral (by omega), put2_eq hmod, hdiv, Cursor.write_numeral 2 (by omega)]
  · rw [put2_eq hmod, put2_numeral (by omega) (by omega), hdiv, Cursor.write_numeral 2 (by omega)]

theorem u64toa_small (h : value < kTen8) : u64toa value b = b.write (numeral value.toNat) := by
  have hlt : value.toNat < 10 ^ 8 := UInt64.lt_iff_toNat_lt.mp h
  have hv : value.toUInt32.toNat = value.toNat := by
    rw [UInt64.toNat_toUInt32]
    omega
  simp only [u64toa, if_pos h, ge_iff_le, UInt32.lt_iff_toNat_lt, UInt32.le_iff_toNat_le, UInt64.le_iff_toNat_le,
    UInt32.reduceToNat, UInt64.reduceToNat, ← hv]
  split_ifs with h4
  · exact put4If_numeral h4 rfl (decide_eq_decide.mpr (by omega)) (decide_eq_decide.mpr (by omega))
      (decide_eq_decide.mpr (by omega))
  · exact put8If_numeral (by omega) (by omega) rfl rfl rfl

theorem u64toa_middle (h : ¬ value < kTen8) (h' : value < kTen16) :
    u64toa value b = b.write (numeral value.toNat) := by
  obtain ⟨k8, k9, k10, k11, k12, k13, k14, k15, k16⟩ := kTens
  have hge : 10 ^ 8 ≤ value.toNat := by
    rw [UInt64.lt_iff_toNat_lt, k8] at h
    omega
  have hlt : value.toNat < 10 ^ 16 := k16 ▸ UInt64.lt_iff_toNat_lt.mp h'
  have hv0 : (value / kTen8).toUInt32.toNat = value.toNat / 10 ^ 8 := by
    rw [UInt64.toNat_toUInt32, UInt64.toNat_div, k8]
    omega
  have hv1 : (value % kTen8).toUInt32.toNat = value.toNat % 10 ^ 8 := by
    rw [UInt64.toNat_toUInt32, UInt64.toNat_mod, k8]
    omega
  have hb0 : ((value / kTen8).toUInt32 / 10000).toNat = value.toNat / 10 ^ 8 / 10 ^ 4 := by
    rw [UInt32.toNat_div, hv0]
    rfl
  have hc0 : ((value / kTen8).toUInt32 % 10000).toNat = value.toNat / 10 ^ 8 % 10000 := by
    rw [UInt32.toNat_mod, hv0]
    rfl
  simp only [u64toa, if_neg h, if_pos h', ge_iff_le, UInt64.le_iff_toNat_le, k8, k9, k10, k11, k12, k13, k14, k15]
  -- the conditions on `value` are those on the digits of `v0` and of what is left of it
  rw [put8_rest hv1, put4If_lead (y := value.toNat / 10 ^ 8) hc0, put4If_lead (y := value.toNat / 10 ^ 8 / 10 ^ 4),
    Cursor.write_write (m := lead 4 _), ← lead_append 4 4, ← numeral_eq_lead_of_pos, Cursor.write_numeral 8]
  all_goals first | omega | exact decide_eq_decide.mpr (by omega)

theorem u64toa_large (h : ¬ value < kTen16) : u64toa value b = b.write (numeral value.toNat) := by
  obtain ⟨k8, -, -, -, -, -, -, -, k16⟩ := kTens
  have hge : 10 ^ 16 ≤ value.toNat := by
    rw [UInt64.lt_iff_toNat_lt, k16] at h
    omega
  have hlt : value.toNat < 2 ^ 64 := value.toNat_lt
  have h8 : ¬ value < kTen8 := by
    rw [UInt64.lt_iff_toNat_lt, k8]
    omega
  have ha : (value / kTen16).toUInt32.toNat = value.toNat / 10 ^ 16 := by
    rw [UInt64.toNat_toUInt32, UInt64.toNat_div, k16]
    omega
  have hv0 : (value % kTen16 / kTen8).toUInt32.toNat = value.toNat / 10 ^ 8 % 10 ^ 8 := by
    rw [UInt64.toNat_toUInt32, UInt64.toNat_div, UInt64.toNat_mod, k8, k16]
    omega
  have hv1 : (value % kTen16 % kTen8).toUInt32.toNat = value.toNat % 10 ^ 8 := by
    rw [UInt64.toNat_toUInt32, UInt64.toNat_mod, UInt64.toNat_mod, k8, k16]
    omega
  simp only [u64toa, if_neg h, if_neg h8]
  rw [put8_rest hv1, put8_rest hv0, putLeading (by omega), ha, Cursor.write_write (m := fixed 8 value.toNat),
    ← fixed_append 8 8, Cursor.write_numeral 16 (by omega)]

theorem u64toa_eq (value : UInt64) (b : Cursor) : u64toa value b = b.write (numeral value.toNat) := by
  by_cases h8 : value < kTen8
  · exact u64toa_small h8
  by_cases h16 : value < kTen16
  · exact u64toa_middle h8 h16
  · exact u64toa_large h16

end Unsigned

section Signed

theorem toInt_int32 (v : Int32) :
    v.toInt = if 2 * v.toUInt32.toNat < 2 ^ 32 then (v.toUInt32.toNat : ℤ) else v.toUInt32.toNat - 2 ^ 32 :=
  BitVec.toInt_eq_toNat_cond v.toBitVec

theorem toInt_int64 (v : Int64) :
    v.toInt = if 2 * v.toUInt64.toNat < 2 ^ 64 then (v.toUInt64.toNat : ℤ) else v.toUInt64.toNat - 2 ^ 64 :=
  BitVec.toInt_eq_toNat_cond v.toBitVec

/-- Two's complement, the negation included. -/
theorem natAbs_of_wrap {M u : ℕ} {x : ℤ} (hu : u < M) (hx : x = if 2 * u < M then (u : ℤ) else u - M) :
    (x < 0 → (M - 1 - u + 1) % M = x.natAbs) ∧ (¬ x < 0 → u = x.natAbs) := by
  split_ifs at hx with hsmall
  · exact ⟨fun hneg => by omega, fun _ => by omega⟩
  · refine ⟨fun _ => ?_, fun hpos => by omega⟩
    rw [Nat.mod_eq_of_lt (by omega)]
    omega

theorem i32toa_eq (v : Int32) (b : Cursor) : i32toa v b = b.write (intNumeral v.toInt) := by
  obtain ⟨hminus, hplus⟩ := natAbs_of_wrap v.toUInt32.toNat_lt (toInt_int32 v)
  simp only [i32toa, u32toa_eq, intNumeral, Int32.lt_iff_toInt_lt]
  change (if v.toInt < 0 then _ else _) = _
  split_ifs with hneg
  · have habs : (~~~v.toUInt32 + 1).toNat = v.toInt.natAbs := by
      rw [UInt32.toNat_add, UInt32.toNat_not]
      exact hminus hneg
    rw [habs, Cursor.put_eq, Cursor.write_write]
    rfl
  · rw [hplus hneg]

theorem i64toa_eq (v : Int64) (b : Cursor) : i64toa v b = b.write (intNumeral v.toInt) := by
  obtain ⟨hminus, hplus⟩ := natAbs_of_wrap v.toUInt64.toNat_lt (toInt_int64 v)
  simp only [i64toa, u64toa_eq, intNumeral, Int64.lt_iff_toInt_lt]
  change (if v.toInt < 0 then _ else _) = _
  split_ifs with hneg
  · have habs : (~~~v.toUInt64 + 1).toNat = v.toInt.natAbs := by
      rw [UInt64.toNat_add, UInt64.toNat_not]
      exact hminus hneg
    rw [habs, Cursor.put_eq, Cursor.write_write]
    rfl
  · rw [hplus hneg]

end Signed

section Results

/-- `f` writes the text at the pointer, at most twenty characters, returns the pointer
just past it and changes nothing else. -/
structure Writes (f : Cursor → Cursor) (l : List UInt8) : Prop where
  short : l.length ≤ 20
  pos : ∀ b, (f b).pos = b.pos + l.length
  text : ∀ b, ∀ k < l.length, (f b).mem (b.pos + k) = l.getD k 0
  frame : ∀ b k, k < b.pos ∨ b.pos + l.length ≤ k → (f b).mem k = b.mem k

variable {f : Cursor → Cursor} {l : List UInt8}

theorem writes_of_eq (hf : ∀ b, f b = b.write l) (hl : l.length ≤ 20) : Writes f l := by
  refine ⟨hl, fun b => ?_, fun b k hk => ?_, fun b k hk => ?_⟩
  · rw [hf, Cursor.pos_write]
  · rw [hf, Cursor.mem_write hk]
  · rw [hf]
    exact hk.elim Cursor.mem_write_lt Cursor.mem_write_ge

/-- The buffer is long enough, and the text ends where it should. -/
theorem Writes.toString (h : Writes f l) (hl : ∀ c ∈ l, c ≠ 0) (garbage : ℕ → UInt8) :
    toStringWith f garbage = l := by
  have hshort := h.short
  have hpos : (f ⟨garbage, 0⟩).pos = l.length := (h.pos ⟨garbage, 0⟩).trans (Nat.zero_add _)
  have hend : ((f ⟨garbage, 0⟩).put 0).mem l.length = 0 := by
    rw [← hpos]
    exact Function.update_self ..
  have htext : (List.range l.length).map ((f ⟨garbage, 0⟩).put 0).mem = l := by
    refine List.ext_getElem (by simp) fun k _ hk => ?_
    have := h.text ⟨garbage, 0⟩ k hk
    rw [List.getElem_map, List.getElem_range, List.getElem_eq_getD 0, ← this, Nat.zero_add]
    exact Function.update_of_ne (by omega) _ _
  obtain ⟨r, hr⟩ : ∃ r, 32 = l.length + (r + 1) := ⟨31 - l.length, by omega⟩
  rw [toStringWith, hr, List.range_add, List.map_append, htext, List.range_succ_eq_map, List.map_cons,
    List.map_cons, Nat.add_zero, hend, List.takeWhile_append_of_pos fun c hc => by simpa using hl c hc,
    List.takeWhile_cons_of_neg (by decide), List.append_nil]

theorem intNumeral_ne_zero (x : ℤ) : ∀ c ∈ intNumeral x, c ≠ 0 := by
  have hdigits : ∀ c ∈ numeral x.natAbs, c ≠ 0 := by
    rintro c hc rfl
    exact absurd ((digits_numeral _).digits 0 hc).1 (by decide)
  unfold intNumeral
  split_ifs
  · exact List.forall_mem_cons.mpr ⟨by decide, hdigits⟩
  · exact hdigits

theorem length_intNumeral_le {x : ℤ} (h : x < 2 ^ 64) (h' : -2 ^ 63 ≤ x) : (intNumeral x).length ≤ 20 := by
  unfold intNumeral
  split_ifs with hneg
  · exact Nat.succ_le_succ (length_numeral_le (w := 19) (by decide) (by omega))
  · exact length_numeral_le (w := 20) (by decide) (by omega)

theorem intNumeral_natCast (n : ℕ) : intNumeral n = numeral n := if_neg (by omega)

/-- Written as an integer, in a buffer and as a string. -/
theorem formats_of_eq {x : ℤ} (hf : ∀ b, f b = b.write (intNumeral x)) (h : x < 2 ^ 64) (h' : -2 ^ 63 ≤ x) :
    Writes f (intNumeral x) ∧ ∀ garbage, toStringWith f garbage = intNumeral x := by
  have hw := writes_of_eq hf (length_intNumeral_le h h')
  exact ⟨hw, hw.toString (intNumeral_ne_zero x)⟩

theorem toString_char (n : Int8) (garbage : ℕ → UInt8) :
    toStringChar n garbage = numeral n.toUInt8.toNat ∧
      toStringUChar n.toUInt8 garbage = numeral n.toUInt8.toNat := by
  have := formats_of_eq (f := u32toa n.toUInt8.toUInt32) (x := n.toUInt8.toNat)
    (fun b => by rw [u32toa_eq, intNumeral_natCast]; rfl) (by have := n.toUInt8.toNat_lt; omega) (by omega)
  rw [intNumeral_natCast] at this
  exact ⟨this.2 garbage, this.2 garbage⟩

/-- The functions write the canonical numeral, at most twenty characters, and return the
pointer just past it; `to_string` returns the numeral. -/
theorem integers_exact :
    (∀ x l, Canonical x l ↔ l = intNumeral x) ∧
      (∀ v : UInt32, Writes (u32toa v) (intNumeral v.toNat) ∧ ∀ g, toStringU32 v g = intNumeral v.toNat) ∧
      (∀ v : Int32, Writes (i32toa v) (intNumeral v.toInt) ∧ ∀ g, toStringI32 v g = intNumeral v.toInt) ∧
      (∀ v : UInt64, Writes (u64toa v) (intNumeral v.toNat) ∧ ∀ g, toStringU64 v g = intNumeral v.toNat) ∧
      ∀ v : Int64, Writes (i64toa v) (intNumeral v.toInt) ∧ ∀ g, toStringI64 v g = intNumeral v.toInt := by
  refine ⟨canonical_iff, fun v => ?_, fun v => ?_, fun v => ?_, fun v => ?_⟩
  · have := v.toNat_lt
    exact formats_of_eq (fun b => by rw [u32toa_eq, intNumeral_natCast]) (by omega) (by omega)
  · have := toInt_int32 v
    have := v.toUInt32.toNat_lt
    refine formats_of_eq (i32toa_eq v) ?_ ?_ <;> split_ifs at * <;> omega
  · have := v.toNat_lt
    exact formats_of_eq (fun b => by rw [u64toa_eq, intNumeral_natCast]) (by omega) (by omega)
  · have := toInt_int64 v
    have := v.toUInt64.toNat_lt
    refine formats_of_eq (i64toa_eq v) ?_ ?_ <;> split_ifs at * <;> omega

end Results

end CppBase.Utility.StrUtil
