import CppBase.Spec.UrlCodec

/-! `UrlDecode` piece by piece. A piece is one character, or `%` with the two
characters behind it; at the end of the string `%` may find fewer. -/

namespace CppBase.Utility.UrlCodec

/-- Induction over the pieces of a string. -/
@[elab_as_elim]
theorem pieces {motive : List UInt8 → Prop} (nil : motive [])
    (char : ∀ c rest, c ≠ 37 → motive rest → motive (c :: rest))
    (escape : ∀ h l rest, motive rest → motive (37 :: h :: l :: rest)) (lone : motive [37])
    (half : ∀ h, motive [37, h]) : ∀ l, motive l
  | [] => nil
  | c :: rest =>
    if hc : c = 37 then
      match rest with
      | [] => hc ▸ lone
      | [h] => hc ▸ half h
      | h :: l :: rest => hc ▸ escape h l rest (pieces nil char escape lone half rest)
    else char c rest hc (pieces nil char escape lone half rest)

variable {sIn : ℕ → UInt8} {len ix fuel : ℕ} {c h l : UInt8} {rest : List UInt8}

section Standing

/-- From the index `ix` to the end the string is `l`. -/
structure Stands (sIn : ℕ → UInt8) (len ix : ℕ) (l : List UInt8) : Prop where
  ends : ix + l.length = len
  reads : ∀ k < l.length, sIn (ix + k) = l.getD k 0

theorem CString.stands (s : CString) (beyond : ℕ → UInt8) : Stands (s.at beyond) s.bytes.length 0 s.bytes := by
  refine ⟨Nat.zero_add _, fun k hk => ?_⟩
  rw [Nat.zero_add, CString.at, if_pos hk]

theorem Stands.head (hs : Stands sIn len ix (c :: rest)) : ix < len ∧ sIn ix = c :=
  ⟨by have := hs.ends; simp at this; omega, hs.reads 0 (by simp)⟩

theorem Stands.tail (hs : Stands sIn len ix (c :: rest)) : Stands sIn len (ix + 1) rest := by
  refine ⟨?_, fun k hk => ?_⟩
  · have := hs.ends
    simp at this
    omega
  · have := hs.reads (k + 1) (by simpa using hk)
    rwa [List.getD_cons_succ, Nat.add_comm k 1, ← Nat.add_assoc] at this

end Standing

section Rounds

/-- What a character other than `%` is decoded to. -/
def decodedChar (c : UInt8) : UInt8 := if c = 43 then 32 else c

/-- There is fuel for the first character, and for those behind it. -/
theorem exists_fuel (hfuel : (c :: rest).length ≤ fuel) : ∃ n, fuel = n + 1 ∧ rest.length ≤ n := by
  rw [List.length_cons] at hfuel
  exact ⟨fuel - 1, by omega, by omega⟩

theorem urlDecodeLoop_end (h : len ≤ ix) : urlDecodeLoop sIn len fuel ix = ([], []) := by
  cases fuel with
  | zero => rfl
  | succ fuel => rw [urlDecodeLoop, if_neg (Nat.not_lt.mpr h)]

theorem urlDecodeLoop_nil (hs : Stands sIn len ix []) : urlDecodeLoop sIn len fuel ix = ([], []) :=
  urlDecodeLoop_end (Nat.le_of_eq hs.ends.symm)

theorem urlDecodeLoop_char (hs : Stands sIn len ix (c :: rest)) (hc : c ≠ 37) :
    urlDecodeLoop sIn len (fuel + 1) ix =
      (decodedChar c :: (urlDecodeLoop sIn len fuel (ix + 1)).1,
        ix :: (urlDecodeLoop sIn len fuel (ix + 1)).2) := by
  obtain ⟨hlt, hhead⟩ := hs.head
  rw [urlDecodeLoop, if_pos hlt, hhead, if_neg hc]
  rfl

/-- A round at `%` reads two characters more, whether they are there or not. -/
theorem urlDecodeLoop_percent (hs : Stands sIn len ix (37 :: rest)) :
    urlDecodeLoop sIn len (fuel + 1) ix =
      (((fromHex (sIn (ix + 1)) <<< 4) ||| fromHex (sIn (ix + 2))) :: (urlDecodeLoop sIn len fuel (ix + 3)).1,
        ix :: (ix + 1) :: (ix + 2) :: (urlDecodeLoop sIn len fuel (ix + 3)).2) := by
  obtain ⟨hlt, hhead⟩ := hs.head
  rw [urlDecodeLoop, if_pos hlt, if_pos hhead]

theorem urlDecodeLoop_escape (hs : Stands sIn len ix (37 :: h :: l :: rest)) :
    urlDecodeLoop sIn len (fuel + 1) ix =
      (((fromHex h <<< 4) ||| fromHex l) :: (urlDecodeLoop sIn len fuel (ix + 3)).1,
        ix :: (ix + 1) :: (ix + 2) :: (urlDecodeLoop sIn len fuel (ix + 3)).2) := by
  rw [urlDecodeLoop_percent hs, hs.tail.head.2, hs.tail.tail.head.2]

end Rounds

end CppBase.Utility.UrlCodec
