import Mathlib.Data.List.Induction
import CppBase.Lib.Bytes

/-! Base 64 as RFC 4648 defines it: the bits of the input in groups of six, a
digit for each group, and padding up to a multiple of four digits. -/

namespace CppBase.Lib.Base64

/-- The bits of a byte, the most significant first. -/
def byteBits (b : UInt8) : List Bool :=
  [b.toNat.testBit 7, b.toNat.testBit 6, b.toNat.testBit 5, b.toNat.testBit 4, b.toNat.testBit 3, b.toNat.testBit 2,
    b.toNat.testBit 1, b.toNat.testBit 0]

def bits (x : List UInt8) : List Bool := x.flatMap byteBits

def ofBits (l : List Bool) : ℕ := l.foldl (fun n b => 2 * n + b.toNat) 0

/-- Groups of six; zeros fill up the last one. -/
def sextets : List Bool → List ℕ
  | a :: b :: c :: d :: e :: f :: rest => ofBits [a, b, c, d, e, f] :: sextets rest
  | [] => []
  | rest => [ofBits (rest ++ List.replicate (6 - rest.length) false)]

def encode (alphabet : ℕ → UInt8) (pad : UInt8) (x : List UInt8) : List UInt8 :=
  let digits := (sextets (bits x)).map alphabet
  digits ++ List.replicate ((4 - digits.length % 4) % 4) pad

/-- The digits up to 61, which both alphabets share. -/
def alnum (n : ℕ) : UInt8 :=
  if n < 26 then UInt8.ofNat (65 + n)
  else if n < 52 then UInt8.ofNat (97 + (n - 26))
  else UInt8.ofNat (48 + (n - 52))

def standard (n : ℕ) : UInt8 := if n = 62 then 43 else if n = 63 then 47 else alnum n

def urlSafe (n : ℕ) : UInt8 := if n = 62 then 45 else if n = 63 then 95 else alnum n

section Digits

theorem ofBits_snoc (l : List Bool) (b : Bool) : ofBits (l ++ [b]) = 2 * ofBits l + b.toNat := by
  simp [ofBits]

theorem ofBits_append (l r : List Bool) : ofBits (l ++ r) = ofBits l * 2 ^ r.length + ofBits r := by
  induction r using List.reverseRecOn with
  | nil => simp [ofBits]
  | append_singleton r b ih =>
    rw [← List.append_assoc, ofBits_snoc, ofBits_snoc, ih, List.length_append, List.length_singleton, Nat.pow_succ]
    ring

theorem ofBits_lt (l : List Bool) : ofBits l < 2 ^ l.length := by
  induction l using List.reverseRecOn with
  | nil => decide
  | append_singleton l b ih =>
    have hb := b.toNat_le
    rw [ofBits_snoc, List.length_append, List.length_singleton, Nat.pow_succ]
    omega

theorem ofBits_byteBits (b : UInt8) : ofBits (byteBits b) = b.toNat := by
  revert b
  apply forall_byte
  decide +kernel

/-- A byte is its first `k` bits and the others. -/
theorem byte_split (k : ℕ) (b : UInt8) :
    b.toNat = 2 ^ (8 - k) * ofBits ((byteBits b).take k) + ofBits ((byteBits b).drop k) ∧
      ofBits ((byteBits b).drop k) < 2 ^ (8 - k) := by
  have hlen : ((byteBits b).drop k).length = 8 - k := List.length_drop
  have happend := ofBits_append ((byteBits b).take k) ((byteBits b).drop k)
  rw [List.take_append_drop, ofBits_byteBits, hlen, Nat.mul_comm] at happend
  exact ⟨happend, hlen ▸ ofBits_lt _⟩

theorem ofBits_take (k : ℕ) (b : UInt8) : ofBits ((byteBits b).take k) = b.toNat / 2 ^ (8 - k) := by
  obtain ⟨hsplit, hlt⟩ := byte_split k b
  rw [hsplit, Nat.mul_add_div (Nat.two_pow_pos _), Nat.div_eq_of_lt hlt, Nat.add_zero]

theorem ofBits_drop (k : ℕ) (b : UInt8) : ofBits ((byteBits b).drop k) = b.toNat % 2 ^ (8 - k) := by
  obtain ⟨hsplit, hlt⟩ := byte_split k b
  rw [hsplit, Nat.mul_add_mod, Nat.mod_eq_of_lt hlt]

theorem ofBits_across (k : ℕ) {j : ℕ} (hj : j ≤ 8) (a b : UInt8) :
    ofBits ((byteBits a).drop k ++ (byteBits b).take j) =
      a.toNat % 2 ^ (8 - k) * 2 ^ j + b.toNat / 2 ^ (8 - j) := by
  have hlen : ((byteBits b).take j).length = j := by
    rw [List.length_take]
    exact Nat.min_eq_left hj
  rw [ofBits_append, ofBits_drop, ofBits_take, hlen]

end Digits

section Groups

variable (a b c : UInt8) (rest : List UInt8)

/-- The four digits of three bytes. -/
def quad : List ℕ :=
  [a.toNat / 4, a.toNat % 4 * 16 + b.toNat / 16, b.toNat % 16 * 4 + c.toNat / 64, c.toNat % 64]

theorem quad_lt : ∀ n ∈ quad a b c, n < 64 := by
  have ha := a.toNat_lt
  have hb := b.toNat_lt
  have hc := c.toNat_lt
  simp only [quad, List.mem_cons, List.not_mem_nil, or_false]
  omega

theorem sextets_three : sextets (bits (a :: b :: c :: rest)) = quad a b c ++ sextets (bits rest) := by
  have h0 := ofBits_take 6 a
  have h1 := ofBits_across 6 (show 4 ≤ 8 by decide) a b
  have h2 := ofBits_across 4 (show 2 ≤ 8 by decide) b c
  have h3 := ofBits_drop 2 c
  show ofBits ((byteBits a).take 6) :: ofBits ((byteBits a).drop 6 ++ (byteBits b).take 4) ::
    ofBits ((byteBits b).drop 4 ++ (byteBits c).take 2) :: ofBits ((byteBits c).drop 2) :: sextets (bits rest) = _
  rw [h0, h1, h2, h3]
  rfl

theorem sextets_two : sextets (bits [a, b]) = (quad a b 0).take 3 := by
  have h0 := ofBits_take 6 a
  have h1 := ofBits_across 6 (show 4 ≤ 8 by decide) a b
  have h2 := ofBits_across 4 (show 2 ≤ 8 by decide) b 0
  show [ofBits ((byteBits a).take 6), ofBits ((byteBits a).drop 6 ++ (byteBits b).take 4),
    ofBits ((byteBits b).drop 4 ++ (byteBits 0).take 2)] = _
  rw [h0, h1, h2]
  rfl

theorem sextets_one : sextets (bits [a]) = (quad a 0 0).take 2 := by
  have h0 := ofBits_take 6 a
  have h1 := ofBits_across 6 (show 4 ≤ 8 by decide) a 0
  show [ofBits ((byteBits a).take 6), ofBits ((byteBits a).drop 6 ++ (byteBits 0).take 4)] = _
  rw [h0, h1]
  rfl

variable (alphabet : ℕ → UInt8) (pad : UInt8)

theorem encode_nil : encode alphabet pad [] = [] := by
  simp [encode, bits, sextets]

theorem encode_one : encode alphabet pad [a] = ((quad a 0 0).take 2).map alphabet ++ [pad, pad] := by
  rw [encode, sextets_one]
  rfl

theorem encode_two : encode alphabet pad [a, b] = ((quad a b 0).take 3).map alphabet ++ [pad] := by
  rw [encode, sextets_two]
  rfl

theorem encode_three :
    encode alphabet pad (a :: b :: c :: rest) = (quad a b c).map alphabet ++ encode alphabet pad rest := by
  have hlen : ((quad a b c).map alphabet).length = 4 := rfl
  simp only [encode, sextets_three, List.map_append, List.length_append, hlen, Nat.add_mod_left, List.append_assoc]

end Groups

/-- Induction over groups of three bytes. -/
@[elab_as_elim]
theorem threes {motive : List UInt8 → Prop} (nil : motive []) (one : ∀ a, motive [a]) (two : ∀ a b, motive [a, b])
    (more : ∀ a b c rest, motive rest → motive (a :: b :: c :: rest)) : ∀ x, motive x
  | [] => nil
  | [a] => one a
  | [a, b] => two a b
  | a :: b :: c :: rest => more a b c rest (threes nil one two more rest)

theorem length_encode (alphabet : ℕ → UInt8) (pad : UInt8) (x : List UInt8) :
    (encode alphabet pad x).length = 4 * ((x.length + 2) / 3) := by
  induction x using threes with
  | nil => simp [encode_nil]
  | one a => simp [encode_one, quad]
  | two a b => simp [encode_two, quad]
  | more a b c rest ih =>
    have hlen : ((quad a b c).map alphabet).length = 4 := rfl
    rw [encode_three, List.length_append, ih, hlen]
    simp only [List.length_cons]
    omega

theorem map_encode {alphabet alphabet' : ℕ → UInt8} {pad : UInt8} {f : UInt8 → UInt8}
    (hf : ∀ n < 64, f (alphabet n) = alphabet' n) (hpad : f pad = pad) :
    ∀ x : List UInt8, (encode alphabet pad x).map f = encode alphabet' pad x := by
  have hquad : ∀ a b c, ((quad a b c).map alphabet).map f = (quad a b c).map alphabet' := by
    intro a b c
    rw [List.map_map]
    exact List.map_congr_left fun n hn => hf n (quad_lt a b c n hn)
  have htail : ∀ k a b c, (((quad a b c).take k).map alphabet).map f = ((quad a b c).take k).map alphabet' := by
    intro k a b c
    rw [List.map_take, List.map_take, hquad, List.map_take]
  intro x
  induction x using threes with
  | nil => simp only [encode_nil, List.map_nil]
  | one a => rw [encode_one, encode_one, List.map_append, htail, List.map_cons, List.map_cons, List.map_nil, hpad]
  | two a b => rw [encode_two, encode_two, List.map_append, htail, List.map_cons, List.map_nil, hpad]
  | more a b c rest ih => rw [encode_three, encode_three, List.map_append, hquad, ih]

end CppBase.Lib.Base64
