import CppBase.Lib.Bytes
import CppBase.Sanity.UrlPieces

/-! Percent encoding: what `UrlEncode` appends has the right form, and `UrlDecode`
gives the string back, whatever lies in memory behind it. -/

namespace CppBase.Utility.UrlCodec

open CppBase.Lib

section Encoding

def isUpperHex (c : UInt8) : Bool := isdigit c || (65 ≤ c && c ≤ 70)

/-- Letters, digits, and `%` with two upper case hexadecimal digits. -/
inductive Escaped : List UInt8 → Prop
  | nil : Escaped []
  | char {c : UInt8} {rest : List UInt8} : isalnum c = true → Escaped rest → Escaped (c :: rest)
  | byte {h l : UInt8} {rest : List UInt8} :
    isUpperHex h = true → isUpperHex l = true → Escaped rest → Escaped (37 :: h :: l :: rest)

def escape (c : UInt8) : List UInt8 := (encodeBuf c).takeWhile (· ≠ 0)

theorem urlEncode_eq (sIn : CString) (strOut : List UInt8) :
    urlEncode sIn strOut = strOut ++ sIn.bytes.flatMap escape :=
  List.foldl_append_eq_append ..

theorem escape_alnum {c : UInt8} (hc : isalnum c = true) : escape c = [c] := by
  revert c
  apply forall_byte
  decide +kernel

theorem escape_other {c : UInt8} (hc : isalnum c = false) : escape c = [37, toHex (c >>> 4), toHex (c % 16)] := by
  revert c
  apply forall_byte
  decide +kernel

theorem hex_digits (c : UInt8) :
    isUpperHex (toHex (c >>> 4)) = true ∧ isUpperHex (toHex (c % 16)) = true ∧
      (fromHex (toHex (c >>> 4)) <<< 4) ||| fromHex (toHex (c % 16)) = c := by
  revert c
  apply forall_byte
  decide +kernel

theorem escaped_flatMap (bytes : List UInt8) : Escaped (bytes.flatMap escape) := by
  induction bytes with
  | nil => exact .nil
  | cons c rest ih =>
    rw [List.flatMap_cons]
    cases hc : isalnum c with
    | true =>
      rw [escape_alnum hc]
      exact .char hc ih
    | false =>
      obtain ⟨hh, hl, -⟩ := hex_digits c
      rw [escape_other hc]
      exact .byte hh hl ih

theorem Escaped.noNul {e : List UInt8} (he : Escaped e) : 0 ∉ e := by
  have hhex : ∀ {c}, isUpperHex c = true → 0 ≠ c := by
    rintro c hc rfl
    cases hc
  induction he with
  | nil => exact List.not_mem_nil
  | char hc _ ih =>
    refine List.not_mem_cons_of_ne_of_not_mem ?_ ih
    rintro rfl
    cases hc
  | byte hh hl _ ih =>
    refine List.not_mem_cons_of_ne_of_not_mem (by decide) ?_
    exact List.not_mem_cons_of_ne_of_not_mem (hhex hh) (List.not_mem_cons_of_ne_of_not_mem (hhex hl) ih)

end Encoding

section Decoding

variable {sIn : ℕ → UInt8} {len ix fuel : ℕ}

theorem urlDecodeLoop_flatMap (bytes : List UInt8) (hfuel : bytes.length ≤ fuel)
    (hs : Stands sIn len ix (bytes.flatMap escape)) : (urlDecodeLoop sIn len fuel ix).1 = bytes := by
  induction bytes generalizing ix fuel with
  | nil =>
    rw [urlDecodeLoop_nil hs]
  | cons c rest ih =>
    obtain ⟨fuel, rfl, hfuel'⟩ := exists_fuel hfuel
    rw [List.flatMap_cons] at hs
    cases hc : isalnum c with
    | true =>
      rw [escape_alnum hc] at hs
      have hne : c ≠ 37 ∧ c ≠ 43 := by
        constructor <;> rintro rfl <;> cases hc
      rw [urlDecodeLoop_char hs hne.1, decodedChar, if_neg hne.2, ih hfuel' hs.tail]
    | false =>
      rw [escape_other hc] at hs
      rw [urlDecodeLoop_escape hs, (hex_digits c).2.2, ih hfuel' hs.tail.tail.tail]

end Decoding

theorem length_le_length_flatMap_escape (bytes : List UInt8) : bytes.length ≤ (bytes.flatMap escape).length := by
  induction bytes with
  | nil => exact le_rfl
  | cons c rest ih =>
    have hc : 1 ≤ (escape c).length := by
      cases h : isalnum c with
      | true => simp [escape_alnum h]
      | false => simp [escape_other h]
    simp only [List.flatMap_cons, List.length_append, List.length_cons]
    omega

theorem url_round_trip (s : CString) (strOut : List UInt8) :
    ∃ e : CString, urlEncode s strOut = strOut ++ e.bytes ∧ Escaped e.bytes ∧
      ∀ beyond, urlDecode e beyond = s.bytes := by
  have he := escaped_flatMap s.bytes
  refine ⟨⟨s.bytes.flatMap escape, he.noNul⟩, urlEncode_eq s strOut, he, fun beyond => ?_⟩
  exact urlDecodeLoop_flatMap s.bytes (length_le_length_flatMap_escape s.bytes) (CString.stands _ beyond)

example : urlEncode ⟨[97, 32, 37, 255], by decide⟩ [63] = ascii "?a%20%25%FF" := by decide +kernel

end CppBase.Utility.UrlCodec
