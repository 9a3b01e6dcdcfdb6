import CppBase.Lib.Base64
import CppBase.Spec.UrlCodec

/-! The masks and shifts of the base 64 loops as division and remainder, and what
the loops do with one group: three bytes when encoding, four digits when decoding. -/

namespace CppBase.Utility.UrlCodec

open CppBase.Lib Base64

section Bytes

theorem toNat_toByte (x : BitVec 32) : (toByte x).toNat = x.toNat % 256 := by
  simp [toByte, UInt8.toNat, BitVec.toNat_setWidth]

theorem toNat_toByte_add {x y : BitVec 32} {m n : ℕ} (hx : x.toNat = m) (hy : y.toNat = n) (hlt : m + n < 256) :
    (toByte (x + y)).toNat = m + n := by
  rw [toNat_toByte, BitVec.toNat_add, hx, hy]
  omega

theorem toNat_ofUChar (b : UInt8) : (ofUChar b).toNat = b.toNat := by
  have hb := b.toNat_lt
  rw [ofUChar, BitVec.toNat_setWidth, UInt8.toNat_toBitVec]
  omega

/-- A mask of one byte keeps no bit that sign extension sets. -/
theorem ofChar_and (b : UInt8) {m : BitVec 32} (hm : m.toNat < 2 ^ 8) : ofChar b &&& m = ofUChar b &&& m := by
  apply BitVec.eq_of_getLsbD_eq
  intro i hi
  rw [BitVec.getLsbD_and, BitVec.getLsbD_and, ofChar, ofUChar, BitVec.getLsbD_signExtend, BitVec.getLsbD_setWidth]
  by_cases h8 : i < 8
  · simp [h8, hi]
  · have hmi : m.getLsbD i = false :=
      Nat.testBit_lt_two_pow (Nat.lt_of_lt_of_le hm (Nat.pow_le_pow_right (by decide) (Nat.not_lt.mp h8)))
    rw [hmi, Bool.and_false, Bool.and_false]

theorem array4_ofChar (a : ℕ → UInt8) : array4 ofChar a = array4 ofUChar a := by
  simp (disch := decide) only [array4, ofChar_and]

/-- The parts of a byte that go into the digits. -/
theorem encode_masks (b : UInt8) :
    ((ofUChar b &&& 0xfc).sshiftRight 2).toNat = b.toNat / 4 ∧
      ((ofUChar b &&& 0x03) <<< 4).toNat = b.toNat % 4 * 16 ∧
      ((ofUChar b &&& 0xf0).sshiftRight 4).toNat = b.toNat / 16 ∧
      ((ofUChar b &&& 0x0f) <<< 2).toNat = b.toNat % 16 * 4 ∧
      ((ofUChar b &&& 0xc0).sshiftRight 6).toNat = b.toNat / 64 ∧ (ofUChar b &&& 0x3f).toNat = b.toNat % 64 := by
  revert b
  apply forall_byte
  decide +kernel

theorem map_toNat_array4 (a : ℕ → UInt8) : (array4 ofUChar a).map UInt8.toNat = quad (a 0) (a 1) (a 2) := by
  obtain ⟨h0, h0', -⟩ := encode_masks (a 0)
  obtain ⟨-, -, h1, h1', -⟩ := encode_masks (a 1)
  obtain ⟨-, -, -, -, h2, h2'⟩ := encode_masks (a 2)
  have lt0 := (a 0).toNat_lt
  have lt1 := (a 1).toNat_lt
  have lt2 := (a 2).toNat_lt
  have e0 : (toByte ((ofUChar (a 0) &&& 0xfc).sshiftRight 2)).toNat = (a 0).toNat / 4 := by
    rw [toNat_toByte, h0]
    omega
  have e3 : (toByte (ofUChar (a 2) &&& 0x3f)).toNat = (a 2).toNat % 64 := by
    rw [toNat_toByte, h2']
    omega
  simp only [array4, quad, List.map_cons, List.map_nil, e0, e3, toNat_toByte_add h0' h1 (by omega),
    toNat_toByte_add h1' h2 (by omega)]

/-- The bytes of four digits. -/
theorem decode_masks (b : UInt8) :
    (ofUChar b <<< 2).toNat = b.toNat * 4 ∧ ((ofUChar b &&& 0x30).sshiftRight 4).toNat = b.toNat / 16 % 4 ∧
      ((ofUChar b &&& 0xf) <<< 4).toNat = b.toNat % 16 * 16 ∧
      ((ofUChar b &&& 0x3c).sshiftRight 2).toNat = b.toNat / 4 % 16 ∧
      ((ofUChar b &&& 0x3) <<< 6).toNat = b.toNat % 4 * 64 := by
  revert b
  apply forall_byte
  decide +kernel

section Decoded

variable {p q r t x y z : UInt8}

theorem first_byte (hp : p.toNat = x.toNat / 4) (hq : q.toNat = x.toNat % 4 * 16 + y.toNat / 16) :
    toByte ((ofUChar p <<< 2) + (ofUChar q &&& 0x30).sshiftRight 4) = x := by
  have hx := x.toNat_lt
  have hy := y.toNat_lt
  rw [← UInt8.toNat_inj, toNat_toByte_add (decode_masks p).1 (decode_masks q).2.1 (by omega)]
  omega

theorem second_byte (hq : q.toNat = x.toNat % 4 * 16 + y.toNat / 16)
    (hr : r.toNat = y.toNat % 16 * 4 + z.toNat / 64) :
    toByte (((ofUChar q &&& 0xf) <<< 4) + (ofUChar r &&& 0x3c).sshiftRight 2) = y := by
  have hy := y.toNat_lt
  have hz := z.toNat_lt
  rw [← UInt8.toNat_inj, toNat_toByte_add (decode_masks q).2.2.1 (decode_masks r).2.2.2.1 (by omega)]
  omega

theorem third_byte (hr : r.toNat = y.toNat % 16 * 4 + z.toNat / 64) (ht : t.toNat = z.toNat % 64) :
    toByte (((ofUChar r &&& 0x3) <<< 6) + ofUChar t) = z := by
  have hz := z.toNat_lt
  rw [← UInt8.toNat_inj, toNat_toByte_add (decode_masks r).2.2.2.2 (toNat_ofUChar t) (by omega)]
  omega

end Decoded

end Bytes

section Encoding

variable {promote : UInt8 → BitVec 32} {table : List UInt8} {alphabet : ℕ → UInt8}

/-- The two ways a byte is promoted. -/
def IsPromotion (promote : UInt8 → BitVec 32) : Prop := promote = ofChar ∨ promote = ofUChar

/-- The table holds the digits of the alphabet. -/
def Digits (table : List UInt8) (alphabet : ℕ → UInt8) : Prop := ∀ n < 64, table.getD n 0 = alphabet n

theorem digits_tables :
    Digits base64Chars standard ∧ Digits urlsafeBase64Chars urlSafe := by
  unfold Digits
  decide +kernel

/-- An index below 128 is not sign extended. -/
theorem promote_index (hp : IsPromotion promote) {c : UInt8} (hc : c.toNat < 128) :
    ((promote c).signExtend 64).toNat = c.toNat := by
  have hsame : promote c = ofUChar c := by
    rcases hp with rfl | rfl
    · apply BitVec.signExtend_eq_setWidth_of_msb_false
      rw [BitVec.msb_eq_false_iff_two_mul_lt, UInt8.toNat_toBitVec]
      omega
    · rfl
  have hpos : (ofUChar c).msb = false := by
    rw [BitVec.msb_eq_false_iff_two_mul_lt, toNat_ofUChar]
    omega
  rw [hsame, BitVec.signExtend_eq_setWidth_of_msb_false hpos, BitVec.toNat_setWidth, toNat_ofUChar]
  omega

theorem array4_promote (hp : IsPromotion promote) (a : ℕ → UInt8) : array4 promote a = array4 ofUChar a := by
  rcases hp with rfl | rfl
  · exact array4_ofChar a
  · rfl

theorem map_charAt (hp : IsPromotion promote) (ht : Digits table alphabet) (a : ℕ → UInt8) :
    (array4 promote a).map (charAt promote table) = (quad (a 0) (a 1) (a 2)).map alphabet := by
  have hmap := map_toNat_array4 a
  rw [array4_promote hp, ← hmap, List.map_map]
  refine List.map_congr_left fun c hc => ?_
  have hlt : c.toNat < 64 := quad_lt _ _ _ _ (hmap ▸ List.mem_map_of_mem hc)
  rw [charAt, promote_index hp (by omega), ht _ hlt, Function.comp_apply]

/-- Three bytes in a row leave the loop where it was, with four digits more. -/
theorem foldl_encodeStep_three (hp : IsPromotion promote) (ht : Digits table alphabet) (a b c : UInt8)
    (rest : List UInt8) (garbage : ℕ → UInt8) (ret : List UInt8) :
    ∃ arr, (a :: b :: c :: rest).foldl (encodeStep promote table) ⟨0, garbage, ret⟩ =
      rest.foldl (encodeStep promote table) ⟨0, arr, ret ++ (quad a b c).map alphabet⟩ := by
  refine ⟨Function.update (Function.update (Function.update garbage 0 a) 1 b) 2 c, ?_⟩
  have hdigits := map_charAt hp ht (Function.update (Function.update (Function.update garbage 0 a) 1 b) 2 c)
  simp only [List.foldl_cons, encodeStep]
  simp only [Nat.reduceAdd, Nat.reduceEqDiff, if_false, if_true, hdigits]
  rfl

theorem encodeTail_of_ne (hp : IsPromotion promote) (ht : Digits table alphabet) (s : Encoder) (hi : s.i ≠ 0) :
    encodeTail promote table s =
      s.ret ++ ((quad (zeroFrom s.i s.array3 0) (zeroFrom s.i s.array3 1) (zeroFrom s.i s.array3 2)).take
        (s.i + 1)).map alphabet ++ List.replicate (3 - s.i) 61 := by
  rw [encodeTail, if_neg hi, List.map_take, map_charAt hp ht, List.map_take]

/-- The loop and the block behind it, from the boundary of a group. -/
theorem encode_from (hp : IsPromotion promote) (ht : Digits table alphabet) (x : List UInt8) (garbage : ℕ → UInt8)
    (ret : List UInt8) :
    encodeTail promote table (x.foldl (encodeStep promote table) ⟨0, garbage, ret⟩) =
      ret ++ encode alphabet 61 x := by
  induction x using threes generalizing garbage ret with
  | nil => simp [encodeTail, encode_nil]
  | one a =>
    rw [encodeTail_of_ne hp ht _ Nat.one_ne_zero, encode_one]
    simp [encodeStep, zeroFrom]
  | two a b =>
    rw [encodeTail_of_ne hp ht _ (by simp [encodeStep]), encode_two]
    simp [encodeStep, zeroFrom]
  | more a b c rest ih =>
    obtain ⟨arr, harr⟩ := foldl_encodeStep_three hp ht a b c rest garbage ret
    rw [harr, ih, encode_three, List.append_assoc]

theorem b64encode_eq (hp : IsPromotion promote) (ht : Digits table alphabet) (garbage : ℕ → UInt8)
    (x : List UInt8) : b64encode promote table garbage x = encode alphabet 61 x :=
  encode_from hp ht x garbage []

theorem base64Encode_eq (garbage : ℕ → UInt8) (x : List UInt8) : base64Encode garbage x = encode standard 61 x :=
  b64encode_eq (Or.inl rfl) digits_tables.1 garbage x

theorem urlsafeB64encode_eq (garbage : ℕ → UInt8) (x : List UInt8) :
    urlsafeB64encode garbage x = encode urlSafe 61 x :=
  b64encode_eq (Or.inr rfl) digits_tables.2 garbage x

end Encoding

section Decoding

/-- Every digit passes the test of the loop, and is found in the table. -/
theorem standard_digit :
    ∀ n < 64, (standard n ≠ 61 && isBase64 (standard n)) = true ∧ find (standard n) = n := by
  decide +kernel

theorem decodeLoop_digit (s : Decoder) {n : ℕ} (hn : n < 64) (rest : List UInt8) :
    decodeLoop s (standard n :: rest) = decodeLoop (decodeStep s (standard n)) rest := by
  rw [decodeLoop, if_pos (standard_digit n hn).1]

theorem decodeLoop_pad (s : Decoder) (rest : List UInt8) : decodeLoop s (61 :: rest) = s := by
  simp [decodeLoop]

theorem toNat_positions {a : ℕ → UInt8} {j n : ℕ} (hn : n < 64) (ha : a j = standard n) :
    (positions a j).toNat = n := by
  rw [positions, ha, (standard_digit n hn).2, UInt8.toNat_ofNat']
  omega

/-- The digits of a group, whatever its last bytes are. -/
theorem quad_bounds (a b c : UInt8) :
    a.toNat / 4 < 64 ∧ a.toNat % 4 * 16 + b.toNat / 16 < 64 ∧ b.toNat % 16 * 4 + c.toNat / 64 < 64 ∧
      c.toNat % 64 < 64 := by
  simpa [quad] using quad_lt a b c

/-- Four digits in a row leave the loop where it was, with three bytes more. -/
theorem decodeLoop_four (a b c : UInt8) (rest : List UInt8) (garbage : ℕ → UInt8) (ret : List UInt8) :
    ∃ arr, decodeLoop ⟨0, garbage, ret⟩ ((quad a b c).map standard ++ rest) =
      decodeLoop ⟨0, arr, ret ++ [a, b, c]⟩ rest := by
  obtain ⟨h0, h1, h2, h3⟩ := quad_bounds a b c
  simp only [quad, List.map_cons, List.map_nil, List.cons_append, List.nil_append, decodeLoop_digit, h0, h1, h2, h3]
  simp only [decodeStep, Nat.reduceAdd, Nat.reduceEqDiff, if_false, if_true]
  rw [array3, first_byte (toNat_positions h0 (by simp)) (toNat_positions h1 (by simp)),
    second_byte (toNat_positions h1 (by simp)) (toNat_positions h2 (by simp)),
    third_byte (toNat_positions h2 (by simp)) (toNat_positions h3 (by simp))]
  exact ⟨_, rfl⟩

theorem decodeTail_two (a b : UInt8) (garbage : ℕ → UInt8) (ret : List UInt8) :
    decodeTail (decodeLoop ⟨0, garbage, ret⟩ (((quad a b 0).take 3).map standard ++ [61])) = ret ++ [a, b] := by
  obtain ⟨h0, h1, h2, -⟩ := quad_bounds a b 0
  simp only [quad, List.take_succ_cons, List.take_zero, List.map_cons, List.map_nil, List.cons_append,
    List.nil_append, decodeLoop_digit, h0, h1, h2, decodeLoop_pad, decodeStep, decodeTail, Nat.reduceAdd,
    Nat.reduceEqDiff, if_false]
  rw [array3, first_byte (toNat_positions h0 (by simp [zeroFrom])) (toNat_positions h1 (by simp [zeroFrom])),
    second_byte (toNat_positions h1 (by simp [zeroFrom])) (toNat_positions h2 (by simp [zeroFrom]))]
  rfl

/-- The cells filled with zero become 255, and only bytes made from other cells are taken. -/
theorem decodeTail_one (a : UInt8) (garbage : ℕ → UInt8) (ret : List UInt8) :
    decodeTail (decodeLoop ⟨0, garbage, ret⟩ (((quad a 0 0).take 2).map standard ++ [61, 61])) = ret ++ [a] := by
  obtain ⟨h0, h1, -, -⟩ := quad_bounds a 0 0
  simp only [quad, List.take_succ_cons, List.take_zero, List.map_cons, List.map_nil, List.cons_append,
    List.nil_append, decodeLoop_digit, h0, h1, decodeLoop_pad, decodeStep, decodeTail, Nat.reduceAdd,
    Nat.reduceEqDiff, if_false]
  rw [array3, first_byte (toNat_positions h0 (by simp [zeroFrom])) (toNat_positions h1 (by simp [zeroFrom]))]
  rfl

theorem decode_from (x : List UInt8) (garbage : ℕ → UInt8) (ret : List UInt8) :
    decodeTail (decodeLoop ⟨0, garbage, ret⟩ (encode standard 61 x)) = ret ++ x := by
  induction x using threes generalizing garbage ret with
  | nil => simp [encode_nil, decodeLoop, decodeTail]
  | one a => rw [encode_one, decodeTail_one]
  | two a b => rw [encode_two, decodeTail_two]
  | more a b c rest ih =>
    obtain ⟨arr, harr⟩ := decodeLoop_four a b c (encode standard 61 rest) garbage ret
    rw [encode_three, harr, ih, List.append_assoc]
    rfl

end Decoding

end CppBase.Utility.UrlCodec
