import CppBase.Sanity.Base64Groups

/-! Both encoders compute the encodings of RFC 4648, and the decoder is a left
inverse of the standard one. What the arrays hold at first never matters. -/

namespace CppBase.Utility.UrlCodec

open CppBase.Lib

theorem base64_round_trip (garbage garbage' : ℕ → UInt8) (x : List UInt8) :
    base64Encode garbage x = Base64.encode Base64.standard 61 x ∧
      (base64Encode garbage x).length = 4 * ((x.length + 2) / 3) ∧
      base64Decode garbage' (base64Encode garbage x) = x := by
  rw [base64Encode_eq]
  refine ⟨rfl, Base64.length_encode _ _ x, ?_⟩
  rw [base64Decode, decode_from, List.nil_append]

example : base64Decode (fun _ => 0) (base64Encode (fun _ => 0) [0, 255, 128, 62]) = [0, 255, 128, 62] := by
  decide +kernel

def toUrlSafe (c : UInt8) : UInt8 := if c = 43 then 45 else if c = 47 then 95 else c

theorem toUrlSafe_standard : ∀ n < 64, toUrlSafe (Base64.standard n) = Base64.urlSafe n := by
  decide +kernel

theorem urlsafe_encoder_agrees (garbage garbage' : ℕ → UInt8) (x : List UInt8) :
    urlsafeB64encode garbage x = (base64Encode garbage' x).map toUrlSafe := by
  rw [urlsafeB64encode_eq, base64Encode_eq, Base64.map_encode toUrlSafe_standard rfl]

end CppBase.Utility.UrlCodec
