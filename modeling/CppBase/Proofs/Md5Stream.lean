import CppBase.Proofs.Md5Update

/-! However a message is cut into chunks, `MD5` returns its digest. -/

namespace CppBase.CenterConfig.MD5

open CppBase.Lib

section Final

variable {s : MD5} {m : List UInt8}

theorem Holds.length_bytes (h : Holds s m) : leBytes 8 (8 * m.length) = store s.bits0 ++ store s.bits1 := by
  have hbits := h.bits
  have h0 := s.bits0.toNat_lt
  have h1 := s.bits1.toNat_lt
  have hlow : s.bits0.toNat = 8 * m.length % 256 ^ 4 := by omega
  have hhigh : s.bits1.toNat = 8 * m.length / 256 ^ 4 % 256 ^ 4 := by omega
  rw [leBytes_append 4 4, store, store, hlow, hhigh, leBytes_mod, leBytes_mod]

/-- The last block: what is in it up to the length, and the length. -/
theorem Begins.finish {X : List UInt8} (h : Begins s X) (hX : X.length = 56) :
    toState s.finish.buf = Md5.process (toState s.buf) (X ++ store s.bits0 ++ store s.bits1) := by
  have hlow := h.move (d := store s.bits0) hX (by rw [length_store]; decide)
  have hlast := hlow.move (d := store s.bits1) (p := 60) (by rw [List.length_append, hX, length_store])
    (by rw [length_store])
  have hinput := hlast.full (by simp [hX, length_store])
  unfold MD5.finish
  simp only [reverseIn_eq, reverseBuf_eq, transform_eq]
  exact congrArg (fun l => Md5.compress (toState s.buf) (load l)) hinput

variable {kept : List UInt8} {p n : ℕ}

/-- The padding ends the block. -/
theorem Begins.pad_one (h : Begins s kept) (hp : kept.length = p) (hlt : p < 56) (hmark : p + 1 ≤ 64)
    (hn : n = 55 - p) (hfits : p + 1 + n ≤ 64) :
    toState ((s.move p [0x80] hmark).zero (p + 1) n hfits).finish.buf =
      ((0x80 :: List.replicate (55 - p) 0 ++ (store s.bits0 ++ store s.bits1)).foldl
        (absorb 64 Md5.process) (toState s.buf, kept)).1 := by
  subst hp hn
  have hzero := (h.move (d := [0x80]) rfl hmark).zero (p := kept.length + 1) (by simp) hfits
  rw [hzero.finish (by simp; omega), absorb_full (by omega) (by simp [length_store]; omega)]
  simp only [List.append_assoc, List.cons_append, List.nil_append]
  rfl

/-- There is no room for the length, and another block follows. -/
theorem Begins.pad_two (h : Begins s kept) (hp : kept.length = p) (hlt : p < 64) (hmark : p + 1 ≤ 64)
    (hn : n = 63 - p) (hfits : p + 1 + n ≤ 64) :
    let t := ((s.move p [0x80] hmark).zero (p + 1) n hfits).transformIn
    toState (t.zero 0 56 (by decide)).finish.buf =
      ((0x80 :: List.replicate (63 - p + 56) 0 ++ (store s.bits0 ++ store s.bits1)).foldl
        (absorb 64 Md5.process) (toState s.buf, kept)).1 := by
  subst hp hn
  intro t
  have hzero := (h.move (d := [0x80]) rfl hmark).zero (p := kept.length + 1) (by simp) hfits
  obtain ⟨hnext, hempty⟩ : toState t.buf = Md5.process (toState s.buf) _ ∧ Begins t [] :=
    hzero.transformIn (by simp; omega)
  obtain ⟨hbits0, hbits1⟩ : t.bits0 = s.bits0 ∧ t.bits1 = s.bits1 := transformIn_bits _
  have hlast := (hempty.zero (p := 0) (n := 56) rfl (by decide)).finish (by simp)
  have hsplit : (0x80 :: List.replicate (63 - kept.length + 56) 0 ++ (store s.bits0 ++ store s.bits1)) =
      ([0x80] ++ List.replicate (63 - kept.length) 0) ++
        (List.replicate 56 0 ++ store s.bits0 ++ store s.bits1) := by
    simp [List.replicate_add]
  have hfull : kept.length + ([0x80] ++ List.replicate (63 - kept.length) 0 : List UInt8).length = 64 := by
    simp
    omega
  rw [hsplit, List.foldl_append, absorb_full hlt hfull, absorb_block (by decide) (by simp [length_store]),
    ← List.append_assoc]
  clear_value t
  rw [hlast, show (t.zero 0 56 (by decide)).bits0 = s.bits0 from hbits0,
    show (t.zero 0 56 (by decide)).bits1 = s.bits1 from hbits1,
    show toState (t.zero 0 56 (by decide)).buf = _ from hnext]
  rfl

theorem no_room_iff {count : UInt32} (hcount : count.toNat < 64) : 64 - 1 - count < 8 ↔ 56 ≤ count.toNat := by
  rw [UInt32.lt_iff_toNat_lt, toNat_padding hcount]
  show 63 - _ < 8 ↔ _
  omega

theorem padding_zeros {r : ℕ} (hr : r < 64) : (119 - r) % 64 = if 56 ≤ r then 63 - r + 56 else 55 - r := by
  split_ifs <;> omega

/-- `final` puts the padding behind the message, in one block or in two. -/
theorem Holds.final (h : Holds s m) :
    toState s.final.buf = ((m ++ Md5.padding m.length).foldl (absorb 64 Md5.process) (Md5.initial, [])).1 := by
  have hlt : m.length % 64 < 64 := Nat.mod_lt _ (by decide)
  have hkept := length_kept Md5.initial m
  have hcount := count_lt s.bits0
  obtain ⟨hstate, hblock⟩ := h.absorbed
  rw [List.foldl_append, Md5.padding, h.length_bytes, padding_zeros hlt, ← h.count]
  rw [← h.count] at hkept
  generalize m.foldl (absorb 64 Md5.process) (Md5.initial, []) = v at hkept hstate hblock ⊢
  obtain ⟨q, kept⟩ := v
  subst hstate
  simp only [MD5.final]
  have hsmall := no_room_iff hcount
  split_ifs with hroom hge hge
  · exact hblock.pad_two hkept hcount hcount (toNat_padding hcount) _
  · exact absurd (hsmall.mp hroom) hge
  · exact absurd (hsmall.mpr hge) hroom
  · exact hblock.pad_one hkept (Nat.not_le.mp hge) hcount (toNat_padding_short hcount hroom) _

end Final

section Digests

variable {s : MD5} {m : List UInt8}

theorem Holds.updateString (h : Holds s m) (str : List UInt8) :
    Holds (s.updateString str) (m ++ str.take (str.length % 2 ^ 32)) := by
  have hlen : (UInt32.ofNat str.length).toNat = str.length % 2 ^ 32 := UInt32.toNat_ofNat'
  rw [← hlen]
  exact h.update (hlen ▸ Nat.mod_le _ _)

def blank : MD5 := ⟨⟨0, 0, 0, 0⟩, 0, 0, List.replicate 64 0, rfl⟩

example : (blank.hash [97, 98, 99]).1 =
    [57, 48, 48, 49, 53, 48, 57, 56, 51, 99, 100, 50, 52, 102, 98, 48,
      100, 54, 57, 54, 51, 102, 55, 100, 50, 56, 101, 49, 55, 102, 55, 50] := by
  decide +kernel

end Digests

end CppBase.CenterConfig.MD5
