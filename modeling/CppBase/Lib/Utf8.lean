import Mathlib.Data.List.Basic

/-! UTF-8 as RFC 3629 defines it: the grammar of its section 4. -/

namespace CppBase.Lib.Utf8

def Tail (b : UInt8) : Prop := 0x80 ≤ b ∧ b ≤ 0xBF

instance (b : UInt8) : Decidable (Tail b) := inferInstanceAs (Decidable (_ ∧ _))

/-- `UTF8-char`, with a constructor for each alternative. -/
inductive Char : List UInt8 → Prop
  | one {a : UInt8} : a ≤ 0x7F → Char [a]
  | two {a b : UInt8} : 0xC2 ≤ a → a ≤ 0xDF → Tail b → Char [a, b]
  | e0 {b c : UInt8} : 0xA0 ≤ b → b ≤ 0xBF → Tail c → Char [0xE0, b, c]
  | e1 {a b c : UInt8} : 0xE1 ≤ a → a ≤ 0xEC → Tail b → Tail c → Char [a, b, c]
  | ed {b c : UInt8} : 0x80 ≤ b → b ≤ 0x9F → Tail c → Char [0xED, b, c]
  | ee {a b c : UInt8} : 0xEE ≤ a → a ≤ 0xEF → Tail b → Tail c → Char [a, b, c]
  | f0 {b c d : UInt8} : 0x90 ≤ b → b ≤ 0xBF → Tail c → Tail d → Char [0xF0, b, c, d]
  | f1 {a b c d : UInt8} : 0xF1 ≤ a → a ≤ 0xF3 → Tail b → Tail c → Tail d → Char [a, b, c, d]
  | f4 {b c d : UInt8} : 0x80 ≤ b → b ≤ 0x8F → Tail c → Tail d → Char [0xF4, b, c, d]

inductive Octets : List UInt8 → Prop
  | nil : Octets []
  | cons {u rest : List UInt8} : Char u → Octets rest → Octets (u ++ rest)

/-- The length of a character, from its first byte. -/
def width (a : UInt8) : ℕ := if a < 0x80 then 1 else if a < 0xE0 then 2 else if a < 0xF0 then 3 else 4

section FirstByte

variable {a : UInt8}

theorem width_one (h : a < 0x80) : width a = 1 := if_pos h

theorem width_two (h : 0x80 ≤ a) (h' : a < 0xE0) : width a = 2 := by
  unfold width
  grind

theorem width_three (h : 0xE0 ≤ a) (h' : a < 0xF0) : width a = 3 := by
  unfold width
  grind

theorem width_four (h : 0xF0 ≤ a) : width a = 4 := by
  unfold width
  grind

end FirstByte

section Characters

variable {a : UInt8} {t u rest : List UInt8}

theorem Char.length_eq (h : Char u) : ∃ a t, u = a :: t ∧ u.length = width a := by
  cases h with
  | one ha => exact ⟨_, _, rfl, (width_one (by grind)).symm⟩
  | two ha ha' => exact ⟨_, _, rfl, (width_two (by grind) (by grind)).symm⟩
  | e0 => exact ⟨_, _, rfl, rfl⟩
  | e1 ha ha' => exact ⟨_, _, rfl, (width_three (by grind) (by grind)).symm⟩
  | ed => exact ⟨_, _, rfl, rfl⟩
  | ee ha ha' => exact ⟨_, _, rfl, (width_three (by grind) (by grind)).symm⟩
  | f0 => exact ⟨_, _, rfl, rfl⟩
  | f1 ha ha' => exact ⟨_, _, rfl, (width_four (by grind)).symm⟩
  | f4 => exact ⟨_, _, rfl, rfl⟩

/-- What begins with a byte begins with a character as long as the byte says. -/
theorem Octets.first (h : Octets (a :: t)) :
    ∃ u rest, a :: t = u ++ rest ∧ u.length = width a ∧ Char u ∧ Octets rest := by
  generalize hs : a :: t = s at h
  cases h with
  | nil => cases hs
  | @cons u rest hu hrest =>
    obtain ⟨b, t', rfl, hlen⟩ := hu.length_eq
    obtain rfl : a = b := (List.cons.inj hs).1
    exact ⟨_, rest, rfl, hlen, hu, hrest⟩

/-- So the characters of a text are found from the left. -/
theorem octets_append_iff (hlen : (a :: t).length = width a) :
    Octets (a :: t ++ rest) ↔ Char (a :: t) ∧ Octets rest := by
  constructor
  · intro h
    obtain ⟨u, rest', heq, hu, hchar, hrest⟩ := Octets.first h
    obtain ⟨rfl, rfl⟩ := List.append_inj heq (hlen.trans hu.symm)
    exact ⟨hchar, hrest⟩
  · rintro ⟨hchar, hrest⟩
    exact .cons hchar hrest

theorem not_octets_of_short (hlen : (a :: t).length < width a) : ¬ Octets (a :: t) := by
  intro h
  obtain ⟨u, rest, heq, hu, -⟩ := Octets.first h
  have := congrArg List.length heq
  simp only [List.length_append] at this
  omega

end Characters

end CppBase.Lib.Utf8
