import CppBase.Proofs.Md5Transform

/-! What `update` keeps: the state after the whole blocks, the bytes behind them, and the
number of bits. -/

namespace CppBase.CenterConfig.MD5

open CppBase.Lib

section Filling

variable {X d l : List UInt8}

theorem prefix_patch (hX : X <+: l) : X ++ d <+: patch l X.length d := by
  rw [patch, ← List.prefix_iff_eq_take.mp hX]
  exact List.prefix_append _ _

def Begins (s : MD5) (X : List UInt8) : Prop := X <+: s.input

variable {s : MD5} {p n : ℕ}

theorem Begins.move (h : Begins s X) (hp : X.length = p) (hlen : p + d.length ≤ 64) :
    Begins (s.move p d hlen) (X ++ d) := by
  subst hp
  exact prefix_patch h

theorem Begins.zero (h : Begins s X) (hp : X.length = p) (hlen : p + n ≤ 64) :
    Begins (s.zero p n hlen) (X ++ List.replicate n 0) :=
  h.move hp _

theorem Begins.full (h : Begins s X) (hX : X.length = 64) : s.input = X :=
  (List.IsPrefix.eq_of_length h (hX.trans s.length_input.symm)).symm

theorem reverseIn_eq (s : MD5) (longs : ℕ) : s.reverseIn longs = s := by
  simp only [MD5.reverseIn, reverse_eq]

theorem Begins.transformIn (h : Begins s X) (hX : X.length = 64) :
    toState s.transformIn.buf = Md5.process (toState s.buf) X ∧ Begins s.transformIn [] := by
  refine ⟨?_, List.nil_prefix⟩
  simp only [MD5.transformIn, reverseIn_eq, h.full hX]
  exact transform_eq ..

end Filling

section Update

variable {s : MD5} {q : Md5.State} {kept d str : List UInt8} {len : UInt32} {fuel : ℕ}

/-- The object has absorbed up to `v`: the state, and the bytes of the block so far. -/
structure Absorbed (s : MD5) (v : Md5.State × List UInt8) : Prop where
  state : toState s.buf = v.1
  block : Begins s v.2

theorem Absorbed.short {p : ℕ} {hfits : p + d.length ≤ 64} (h : Absorbed s (q, kept)) (hp : kept.length = p)
    (hlen : p + d.length < 64) :
    Absorbed (s.move p d hfits) (d.foldl (absorb 64 Md5.process) (q, kept)) := by
  subst hp
  rw [absorb_short hlen]
  exact ⟨h.state, h.block.move rfl hfits⟩

/-- A block is filled up from `str`, and goes through. -/
theorem Absorbed.filled {p n room : ℕ} (h : Absorbed s (q, kept)) (hfits : p + (str.take room).length ≤ 64)
    (hp : kept.length = p) (hkept : p < 64) (hroom : room = 64 - p) (hn : room ≤ n) (hstr : n ≤ str.length) :
    ∃ q', Absorbed (s.move p (str.take room) hfits).transformIn (q', []) ∧
      (str.take n).foldl (absorb 64 Md5.process) (q, kept) =
        ((str.drop room).take (n - room)).foldl (absorb 64 Md5.process) (q', []) := by
  subst hp
  have hlen : kept.length + (str.take room).length = 64 := by
    rw [List.length_take]
    omega
  have hsplit : str.take n = str.take room ++ (str.drop room).take (n - room) := by
    rw [← List.take_add, Nat.add_sub_cancel' hn]
  obtain ⟨hstate, hblock⟩ := (h.block.move rfl hfits).transformIn (by rw [List.length_append, hlen])
  refine ⟨Md5.process q (kept ++ str.take room), ⟨?_, hblock⟩, ?_⟩
  · exact hstate.trans (congrArg (Md5.process · _) h.state)
  · rw [hsplit, List.foldl_append, absorb_full hkept hlen]

theorem Absorbed.updateLoop (h : Absorbed s (q, [])) (hstr : len.toNat ≤ str.length)
    (hfuel : len.toNat / 64 < fuel) :
    Absorbed (updateLoop fuel s str len) ((str.take len.toNat).foldl (absorb 64 Md5.process) (q, [])) := by
  induction fuel generalizing s q str len with
  | zero => exact absurd hfuel (Nat.not_lt_zero _)
  | succ fuel ih =>
    rw [MD5.updateLoop]
    split_ifs with hge
    · have hsub : (len - 64).toNat = len.toNat - 64 := UInt32.toNat_sub_of_le _ _ hge
      have hle : 64 ≤ len.toNat := UInt32.le_iff_toNat_le.mp hge
      obtain ⟨q', hnext, hrest⟩ := h.filled (p := 0) (take_fits (by decide)) rfl (by decide) rfl hle hstr
      rw [hrest, ← hsub]
      exact ih hnext (by rw [hsub, List.length_drop]; omega) (by rw [hsub]; omega)
    · have hlt := below_block hge
      exact h.short rfl (by rw [List.length_take]; omega)

structure Holds (s : MD5) (m : List UInt8) : Prop where
  bits : s.bits0.toNat + 2 ^ 32 * s.bits1.toNat = 8 * m.length % 2 ^ 64
  absorbed : Absorbed s (m.foldl (absorb 64 Md5.process) (Md5.initial, []))

variable {m : List UInt8}

theorem length_kept (q : Md5.State) (m : List UInt8) :
    (m.foldl (absorb 64 Md5.process) (q, [])).2.length = m.length % 64 := by
  induction m using List.reverseRecOn with
  | nil => rfl
  | append_singleton m b ih =>
    rw [List.foldl_append, List.foldl_cons, List.foldl_nil, absorb, List.length_append, List.length_singleton]
    split_ifs with hfull
    · rw [ih] at hfull
      show 0 = _
      omega
    · rw [ih] at hfull
      rw [List.length_append, ih, List.length_singleton]
      omega

/-- The bytes in the block, as `update` and `final` count them. -/
theorem Holds.count (h : Holds s m) : ((s.bits0 >>> 3) &&& 0x3f).toNat = m.length % 64 := by
  have hbits := h.bits
  have hlt := s.bits0.toNat_lt
  rw [UInt32.toNat_and, UInt32.toNat_shiftRight]
  show s.bits0.toNat >>> 3 &&& 2 ^ 6 - 1 = _
  rw [Nat.and_two_pow_sub_one_eq_mod, Nat.shiftRight_eq_div_pow]
  omega

/-- The bits of the message are counted over two words. -/
theorem Holds.bits_update (h : Holds s m) (len : UInt32) :
    (s.bits0 + len <<< 3).toNat + 2 ^ 32 *
        ((if s.bits0 + len <<< 3 < s.bits0 then s.bits1 + 1 else s.bits1) + len >>> 29).toNat =
      8 * (m.length + len.toNat) % 2 ^ 64 := by
  have hbits := h.bits
  have h0 := s.bits0.toNat_lt
  have h1 := s.bits1.toNat_lt
  have hlen := len.toNat_lt
  have hshl : (len <<< 3).toNat = len.toNat * 8 % 2 ^ 32 := by
    rw [UInt32.toNat_shiftLeft, Nat.shiftLeft_eq]
    rfl
  have hshr : (len >>> 29).toNat = len.toNat / 2 ^ 29 := by
    rw [UInt32.toNat_shiftRight, Nat.shiftRight_eq_div_pow]
    rfl
  have hone : (1 : UInt32).toNat = 1 := rfl
  split_ifs with hcarry
  · rw [UInt32.lt_iff_toNat_lt, UInt32.toNat_add, hshl] at hcarry
    rw [UInt32.toNat_add, UInt32.toNat_add, UInt32.toNat_add, hshl, hshr, hone]
    omega
  · rw [UInt32.lt_iff_toNat_lt, UInt32.toNat_add, hshl] at hcarry
    rw [UInt32.toNat_add, UInt32.toNat_add, hshl, hshr]
    omega

theorem transformIn_bits (s : MD5) : s.transformIn.bits0 = s.bits0 ∧ s.transformIn.bits1 = s.bits1 := by
  unfold MD5.transformIn
  generalize transform (s.reverseIn 16).buf (load (s.reverseIn 16).input) = buf
  exact ⟨rfl, rfl⟩

theorem updateLoop_bits (fuel : ℕ) (s : MD5) (str : List UInt8) (len : UInt32) :
    (MD5.updateLoop fuel s str len).bits0 = s.bits0 ∧ (MD5.updateLoop fuel s str len).bits1 = s.bits1 := by
  induction fuel generalizing s str len with
  | zero => exact ⟨rfl, rfl⟩
  | succ fuel ih =>
    rw [MD5.updateLoop]
    split_ifs
    · obtain ⟨h0, h1⟩ := transformIn_bits (s.move 0 (str.take 64) (take_fits (by decide)))
      rw [(ih _ _ _).1, (ih _ _ _).2, h0, h1]
      exact ⟨rfl, rfl⟩
    · exact ⟨rfl, rfl⟩

theorem update_bits (s : MD5) (str : List UInt8) (len : UInt32) :
    (s.update str len).bits0 = s.bits0 + len <<< 3 ∧
      (s.update str len).bits1 =
        (if s.bits0 + len <<< 3 < s.bits0 then s.bits1 + 1 else s.bits1) + len >>> 29 := by
  simp only [MD5.update]
  split
  · split
    · exact ⟨rfl, rfl⟩
    · rw [(updateLoop_bits ..).1, (updateLoop_bits ..).2, (transformIn_bits _).1, (transformIn_bits _).2]
      exact ⟨rfl, rfl⟩
  · exact updateLoop_bits ..

/-- `update` absorbs its argument, from wherever it is in a block. -/
theorem Absorbed.update (h : Absorbed s (q, kept)) (hcount : kept.length = ((s.bits0 >>> 3) &&& 0x3f).toNat)
    (hstr : len.toNat ≤ str.length) :
    Absorbed (s.update str len) ((str.take len.toNat).foldl (absorb 64 Md5.process) (q, kept)) := by
  have ht := count_lt s.bits0
  have hroom := toNat_room ht
  simp only [MD5.update]
  generalize (if s.bits0 + len <<< 3 < s.bits0 then s.bits1 + 1 else s.bits1) + len >>> 29 = bits1
  have hcounted : Absorbed { s with bits0 := s.bits0 + len <<< 3, bits1 } (q, kept) := ⟨h.state, h.block⟩
  split_ifs with hzero hlt
  · have hlen := UInt32.lt_iff_toNat_lt.mp hlt
    rw [hroom] at hlen
    exact hcounted.short hcount (by rw [List.length_take]; omega)
  · -- the block is filled first, and the loop goes on behind it
    have hle := Nat.not_lt.mp fun h => hlt (UInt32.lt_iff_toNat_lt.mpr h)
    have hsub := UInt32.toNat_sub_of_le len _ (UInt32.le_iff_toNat_le.mpr hle)
    obtain ⟨q', hnext, hrest⟩ := hcounted.filled (take_fits (rest_fits ht)) hcount ht hroom hle hstr
    rw [hrest, ← hsub]
    refine hnext.updateLoop (by rw [hsub, List.length_drop]; omega) (Nat.lt_succ_of_le ?_)
    exact Nat.div_le_div_right (by rw [hsub]; omega)
  · obtain rfl : kept = [] := List.eq_nil_of_length_eq_zero (by rw [hcount, not_not.mp hzero]; rfl)
    exact hcounted.updateLoop hstr (Nat.lt_succ_self _)

theorem Holds.update (h : Holds s m) (hstr : len.toNat ≤ str.length) :
    Holds (s.update str len) (m ++ str.take len.toNat) := by
  have hkept := length_kept Md5.initial m
  obtain ⟨hbits0, hbits1⟩ := update_bits s str len
  refine ⟨?_, ?_⟩
  · rw [hbits0, hbits1, List.length_append, List.length_take, Nat.min_eq_left hstr]
    exact h.bits_update len
  · rw [List.foldl_append]
    exact h.absorbed.update (hkept.trans h.count.symm) hstr

end Update

end CppBase.CenterConfig.MD5
