import Mathlib.Order.Nat
import CppBase.Lib.Bytes
import CppBase.Sanity.UrlPieces

/-! Lower case hexadecimal digits. `fromHex` gives them a bit too many: it is
shifted out of the first digit, but as the second digit it sets bit 5 of the byte. -/

namespace CppBase.Utility.UrlCodec

open CppBase.Lib

section Digits

def isLowerHex (c : UInt8) : Bool := 97 ≤ c && c ≤ 102

def isHex (c : UInt8) : Bool := isdigit c || (65 ≤ c && c ≤ 70) || isLowerHex c

def hexValue (c : UInt8) : UInt8 := if isdigit c then c - 48 else if isLowerHex c then c - 97 + 10 else c - 65 + 10

def upper (c : UInt8) : UInt8 := if isLowerHex c then c - 32 else c

/-- The value of the digit has bit 1: it is one of 2, 3, 6, 7, A, B, E and F. -/
def hasBit (c : UInt8) : Bool := hexValue c &&& 2 = 2

theorem upper_hex {c : UInt8} (hc : isHex c = true) :
    isHex (upper c) = true ∧ hexValue (upper c) = hexValue c ∧ isLowerHex (upper c) = false := by
  revert c
  apply forall_byte
  decide +kernel

theorem upper_ne_zero {c : UInt8} (hc : c ≠ 0) : upper c ≠ 0 := by
  unfold upper
  split
  · rename_i hlow
    intro hzero
    rw [UInt8.sub_eq_iff_eq_add.mp hzero] at hlow
    cases hlow
  · exact hc

theorem ne_percent {c : UInt8} (hc : isHex c = true) : c ≠ 37 := by
  rintro rfl
  cases hc

/-- What `fromHex` makes of a digit, as the first one behind a `%` and as the second. -/
theorem fromHex_hex {c : UInt8} (hc : isHex c = true) :
    hexValue c < 16 ∧ fromHex c <<< 4 = hexValue c <<< 4 ∧
      fromHex c = hexValue c ||| if isLowerHex c then 32 else 0 := by
  revert c
  apply forall_byte
  decide +kernel

/-- Two digits below 16, with or without a bit too many. -/
theorem nibbles {x y : UInt8} (hx : x < 16) (hy : y < 16) :
    x <<< 4 ||| (y ||| 0) = x * 16 + y ∧ (x <<< 4 ||| (y ||| 32) = x * 16 + y ↔ x &&& 2 = 2) := by
  have hall : ∀ m < 16, ∀ n < 16,
      UInt8.ofNat m <<< 4 ||| (UInt8.ofNat n ||| 0) = UInt8.ofNat m * 16 + UInt8.ofNat n ∧
        (UInt8.ofNat m <<< 4 ||| (UInt8.ofNat n ||| 32) = UInt8.ofNat m * 16 + UInt8.ofNat n ↔
          UInt8.ofNat m &&& 2 = 2) := by
    decide +kernel
  have hxy := hall x.toNat (UInt8.lt_iff_toNat_lt.mp hx) y.toNat (UInt8.lt_iff_toNat_lt.mp hy)
  rwa [UInt8.ofNat_toNat, UInt8.ofNat_toNat] at hxy

/-- When the two digits behind a `%` are decoded to the byte they stand for. -/
theorem escape_value_iff {h l : UInt8} (hh : isHex h = true) (hl : isHex l = true) :
    (fromHex h <<< 4) ||| fromHex l = hexValue h * 16 + hexValue l ↔ (isLowerHex l = true → hasBit h = true) := by
  obtain ⟨hltH, hshift, -⟩ := fromHex_hex hh
  obtain ⟨hltL, -, hlast⟩ := fromHex_hex hl
  obtain ⟨hclear, hset⟩ := nibbles hltH hltL
  rw [hshift, hlast]
  cases hlow : isLowerHex l with
  | false => simpa using hclear
  | true => simpa [hasBit] using hset

end Digits

section Strings

/-- Every `%` is followed by two hexadecimal digits. -/
inductive HexEscaped : List UInt8 → Prop
  | nil : HexEscaped []
  | char {c : UInt8} {rest : List UInt8} : c ≠ 37 → HexEscaped rest → HexEscaped (c :: rest)
  | escape {h l : UInt8} {rest : List UInt8} :
    isHex h = true → isHex l = true → HexEscaped rest → HexEscaped (37 :: h :: l :: rest)

def upperHex : List UInt8 → List UInt8
  | 37 :: h :: l :: rest => 37 :: upper h :: upper l :: upperHex rest
  | c :: rest => c :: upperHex rest
  | [] => []

def percentDecoded : List UInt8 → List UInt8
  | 37 :: h :: l :: rest => (hexValue h * 16 + hexValue l) :: percentDecoded rest
  | c :: rest => decodedChar c :: percentDecoded rest
  | [] => []

/-- No lower case letter is the second digit behind a first one without bit 1. -/
def CaseSafe (s : List UInt8) : Prop :=
  ∀ pre h l post, s = pre ++ 37 :: h :: l :: post → isLowerHex l = true → hasBit h = true

variable {c h l : UInt8} {rest s : List UInt8}

theorem upperHex_char (hc : c ≠ 37) : upperHex (c :: rest) = c :: upperHex rest := by
  rw [upperHex]
  rintro h l rest rfl
  exact absurd rfl hc

theorem percentDecoded_char (hc : c ≠ 37) : percentDecoded (c :: rest) = decodedChar c :: percentDecoded rest := by
  rw [percentDecoded]
  rintro h l rest rfl
  exact absurd rfl hc

theorem caseSafe_nil : CaseSafe [] := by
  intro pre h l post heq
  simp at heq

theorem caseSafe_char (hc : c ≠ 37) : CaseSafe (c :: rest) ↔ CaseSafe rest := by
  constructor
  · rintro hsafe pre h l post rfl
    exact hsafe (c :: pre) h l post rfl
  · intro hsafe pre h l post heq
    cases pre with
    | nil => exact absurd (List.cons.inj heq).1 hc
    | cons d pre => exact hsafe pre h l post (List.cons.inj heq).2

theorem caseSafe_escape (hh : h ≠ 37) (hl : l ≠ 37) :
    CaseSafe (37 :: h :: l :: rest) ↔ (isLowerHex l = true → hasBit h = true) ∧ CaseSafe rest := by
  constructor
  · intro hsafe
    refine ⟨hsafe [] h l rest rfl, ?_⟩
    rintro pre h' l' post rfl
    exact hsafe (37 :: h :: l :: pre) h' l' post rfl
  · rintro ⟨hfirst, hsafe⟩ pre h' l' post heq
    match pre, heq with
    | [], heq =>
      obtain ⟨rfl, rfl, -⟩ : h = h' ∧ l = l' ∧ rest = post := by simpa using heq
      exact hfirst
    | [d], heq => exact absurd (List.cons.inj (List.cons.inj heq).2).1 hh
    | [d, d'], heq => exact absurd (List.cons.inj (List.cons.inj (List.cons.inj heq).2).2).1 hl
    | d :: d' :: d'' :: pre, heq =>
      exact hsafe pre h' l' post (List.cons.inj (List.cons.inj (List.cons.inj heq).2).2).2

theorem HexEscaped.upperHex (hs : HexEscaped s) : HexEscaped (upperHex s) := by
  induction hs with
  | nil => exact .nil
  | char hc _ ih => rw [upperHex_char hc]; exact .char hc ih
  | escape hh hl _ ih => exact .escape (upper_hex hh).1 (upper_hex hl).1 ih

theorem zero_notMem_upperHex (hs : HexEscaped s) (hnul : 0 ∉ s) : 0 ∉ upperHex s := by
  induction hs with
  | nil => exact hnul
  | char hc _ ih =>
    rw [upperHex_char hc]
    simp only [List.mem_cons, not_or] at hnul ⊢
    exact ⟨hnul.1, ih hnul.2⟩
  | escape _ _ _ ih =>
    simp only [UrlCodec.upperHex, List.mem_cons, not_or] at hnul ⊢
    exact ⟨hnul.1, (upper_ne_zero (Ne.symm hnul.2.1)).symm, (upper_ne_zero (Ne.symm hnul.2.2.1)).symm,
      ih hnul.2.2.2⟩

/-- Upper case changes no value, and is always safe. -/
theorem percentDecoded_upperHex (hs : HexEscaped s) :
    percentDecoded (UrlCodec.upperHex s) = percentDecoded s ∧ CaseSafe (UrlCodec.upperHex s) := by
  induction hs with
  | nil => exact ⟨rfl, caseSafe_nil⟩
  | char hc _ ih =>
    rw [upperHex_char hc, percentDecoded_char hc, percentDecoded_char hc, ih.1, caseSafe_char hc]
    exact ⟨rfl, ih.2⟩
  | escape hh hl _ ih =>
    obtain ⟨hh', hvh, -⟩ := upper_hex hh
    obtain ⟨hl', hvl, hlow⟩ := upper_hex hl
    simp only [UrlCodec.upperHex, percentDecoded, hvh, hvl, ih.1, true_and]
    rw [caseSafe_escape (ne_percent hh') (ne_percent hl'), hlow]
    exact ⟨nofun, ih.2⟩

end Strings

section Loop

variable {sIn : ℕ → UInt8} {len ix fuel : ℕ} {s : List UInt8}

theorem urlDecodeLoop_percentDecoded (hesc : HexEscaped s) (hfuel : s.length ≤ fuel) (hs : Stands sIn len ix s) :
    (urlDecodeLoop sIn len fuel ix).1 = percentDecoded s ↔ CaseSafe s := by
  induction hesc generalizing ix fuel with
  | nil =>
    rw [urlDecodeLoop_nil hs]
    exact iff_of_true rfl caseSafe_nil
  | char hc _ ih =>
    obtain ⟨fuel, rfl, hrest⟩ := exists_fuel hfuel
    rw [urlDecodeLoop_char hs hc, percentDecoded_char hc, caseSafe_char hc, ← ih hrest hs.tail]
    simp only [List.cons.injEq, true_and]
  | @escape h l rest hh hl _ ih =>
    obtain ⟨fuel, rfl, hrest⟩ := exists_fuel hfuel
    have hfuel' : rest.length ≤ fuel := by
      simp only [List.length_cons] at hrest
      omega
    rw [urlDecodeLoop_escape hs, percentDecoded, caseSafe_escape (ne_percent hh) (ne_percent hl),
      ← ih hfuel' hs.tail.tail.tail, ← escape_value_iff hh hl]
    simp only [List.cons.injEq]

end Loop

def CString.upperHex (s : CString) (h : HexEscaped s.bytes) : CString :=
  ⟨UrlCodec.upperHex s.bytes, zero_notMem_upperHex h s.noNul⟩

/-- Decoding ignores the case of the digits exactly if no escape has a lower case
letter as its second digit and one of 0, 1, 4, 5, 8, 9, C and D as its first. -/
theorem hex_case_iff (s : CString) (beyond : ℕ → UInt8) (h : HexEscaped s.bytes) :
    urlDecode s beyond = urlDecode (s.upperHex h) beyond ∧ urlDecode s beyond = percentDecoded s.bytes ↔
      CaseSafe s.bytes := by
  have hupper : urlDecode (s.upperHex h) beyond = percentDecoded s.bytes := by
    obtain ⟨hsame, hsafe⟩ := percentDecoded_upperHex h
    rw [← hsame]
    exact (urlDecodeLoop_percentDecoded h.upperHex le_rfl (CString.stands _ beyond)).mpr hsafe
  rw [hupper, and_self]
  exact urlDecodeLoop_percentDecoded h le_rfl (s.stands beyond)

theorem hex_case_mixed :
    let s : CString := ⟨ascii "%e4%2F%7b+", by decide⟩
    ∃ h, urlDecode s (fun _ => 0) = urlDecode (s.upperHex h) fun _ => 0 := by
  intro s
  have h : HexEscaped s.bytes := .escape rfl rfl (.escape rfl rfl (.escape rfl rfl (.char (by decide) .nil)))
  refine ⟨h, ((hex_case_iff s _ h).mpr ?_).1⟩
  rw [show s.bytes = 37 :: 101 :: 52 :: 37 :: 50 :: 70 :: 37 :: 55 :: 98 :: [43] from rfl]
  rw [caseSafe_escape (by decide) (by decide), caseSafe_escape (by decide) (by decide),
    caseSafe_escape (by decide) (by decide), caseSafe_char (by decide)]
  exact ⟨by decide, by decide, by decide, caseSafe_nil⟩

/-- A line feed escaped by another encoder comes out as an asterisk. -/
theorem lower_case_newline :
    let s : CString := ⟨ascii "%0a", by decide⟩
    let t : CString := ⟨ascii "%0A", by decide⟩
    upperHex s.bytes = t.bytes ∧ urlDecode s (fun _ => 0) = ascii "*" ∧ urlDecode t (fun _ => 0) = [10] ∧
      percentDecoded s.bytes = [10] := by
  decide +kernel

end CppBase.Utility.UrlCodec
