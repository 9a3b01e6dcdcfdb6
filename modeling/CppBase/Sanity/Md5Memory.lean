import CppBase.Lib.Md5
import CppBase.Spec.MD5

/-! Words and bytes of the class `MD5`: on a little-endian host `reverse` changes nothing. -/

namespace CppBase.CenterConfig.MD5

open CppBase.Lib

section Reverse

theorem toNat_join {x y : UInt32} {n : ℕ} (k : UInt32) (hk : k.toNat = n) (hn : n < 32) (hy : y.toNat < 2 ^ n)
    (hx : x.toNat * 2 ^ n < 2 ^ 32) : (x <<< k ||| y).toNat = x.toNat * 2 ^ n + y.toNat := by
  rw [UInt32.toNat_or, UInt32.toNat_shiftLeft, hk, Nat.mod_eq_of_lt hn, Nat.shiftLeft_eq, Nat.mod_eq_of_lt hx,
    ← Nat.shiftLeft_eq, Nat.shiftLeft_add_eq_or_of_lt hy]

theorem toNat_word (b0 b1 b2 b3 : UInt8) :
    ((b3.toUInt32 <<< 8 ||| b2.toUInt32) <<< 16 ||| (b1.toUInt32 <<< 8 ||| b0.toUInt32)).toNat =
      ofLeBytes [b0, b1, b2, b3] := by
  have h0 := b0.toNat_lt
  have h1 := b1.toNat_lt
  have h2 := b2.toNat_lt
  have h3 := b3.toNat_lt
  have hhigh := toNat_join (x := b3.toUInt32) (y := b2.toUInt32) (n := 8) 8 rfl (by decide)
    (by rw [UInt8.toNat_toUInt32]; omega) (by rw [UInt8.toNat_toUInt32]; omega)
  have hlow := toNat_join (x := b1.toUInt32) (y := b0.toUInt32) (n := 8) 8 rfl (by decide)
    (by rw [UInt8.toNat_toUInt32]; omega) (by rw [UInt8.toNat_toUInt32]; omega)
  rw [UInt8.toNat_toUInt32, UInt8.toNat_toUInt32] at hhigh hlow
  rw [toNat_join (n := 16) 16 rfl (by decide) (by omega) (by omega), hhigh, hlow]
  simp only [ofLeBytes]
  omega

theorem reverse_eq (longs : ℕ) (str : List UInt8) : reverse longs str = str := by
  fun_induction reverse longs str with
  | case1 longs b0 b1 b2 b3 str t ih =>
    rw [store, toNat_word, ih]
    exact congrArg (· ++ str) (leBytes_ofLeBytes [b0, b1, b2, b3])
  | case2 => rfl

end Reverse

section Words

theorem load_append {l m : List UInt8} {k : ℕ} (hl : l.length = 4 * k) (w : UInt32) :
    load (l ++ store w ++ m) k = w := by
  have hslice : slice (l ++ store w ++ m) (4 * k) 4 = store w := by
    rw [slice, ← hl, List.append_assoc, List.drop_left, List.take_append_of_le_length (by rw [length_store]),
      List.take_of_length_le (by rw [length_store])]
  rw [load, hslice, store, ofLeBytes_leBytes_of_lt w.toNat_lt, UInt32.ofNat_toNat]

theorem reverseBuf_eq (buf : Words) : reverseBuf buf = buf := by
  have h0 : load (bufBytes buf) 0 = buf.a := by
    simpa [bufBytes] using load_append (l := []) (m := store buf.b ++ store buf.c ++ store buf.d) (k := 0)
      rfl buf.a
  have h1 : load (bufBytes buf) 1 = buf.b := by
    simpa [bufBytes] using load_append (l := store buf.a) (m := store buf.c ++ store buf.d) (k := 1)
      (length_store _) buf.b
  have h2 : load (bufBytes buf) 2 = buf.c := by
    simpa [bufBytes] using load_append (l := store buf.a ++ store buf.b) (m := store buf.d) (k := 2)
      (by simp [length_store]) buf.c
  have h3 : load (bufBytes buf) 3 = buf.d := by
    simpa [bufBytes] using load_append (l := store buf.a ++ store buf.b ++ store buf.c) (m := []) (k := 3)
      (by simp [length_store]) buf.d
  rw [reverseBuf, reverse_eq, h0, h1, h2, h3]

end Words

end CppBase.CenterConfig.MD5
