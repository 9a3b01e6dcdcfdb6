import CppBase.Lib.Bytes
import CppBase.Lib.Utf8
import CppBase.Sanity.UrlPieces

/-! `IsUTF8` against RFC 3629. It looks at the ranges of the first bytes and at two
bits of the others, takes a character that is cut off at the end for a whole one
and knows no character of four bytes. -/

namespace CppBase.Utility.UrlCodec

open CppBase.Lib Utf8

section Scan

/-- The loop on what is left of the buffer. -/
def scan : List UInt8 → Bool
  | [] => true
  | a :: rest =>
    if a < 0x80 then scan rest
    else if a < 0xC0 then false
    else if a < 0xE0 then
      match rest with
      | [] => true
      | b :: rest => if b &&& 0xC0 ≠ 0x80 then false else scan rest
    else if a < 0xF0 then
      match rest with
      | b :: c :: rest =>
        if b &&& 0xC0 ≠ 0x80 then false else if c &&& 0xC0 ≠ 0x80 then false else scan rest
      | _ => true
    else false

variable {p : ℕ → UInt8} {size start fuel : ℕ}

theorem inside_cons {reads : List ℕ} (h : start < size) (hreads : ∀ k ∈ reads, k < size) :
    ∀ k ∈ start :: reads, k < size :=
  List.forall_mem_cons.mpr ⟨h, hreads⟩

/-- The loop does what `scan` does, and reads the buffer only. -/
theorem isUTF8Loop_eq_scan (s : List UInt8) (hfuel : s.length ≤ fuel) (hs : Stands p size start s) :
    (isUTF8Loop p size fuel start).1 = scan s ∧ ∀ k ∈ (isUTF8Loop p size fuel start).2, k < size := by
  induction fuel generalizing s start with
  | zero =>
    obtain rfl := List.eq_nil_of_length_eq_zero (Nat.le_zero.mp hfuel)
    exact ⟨rfl, nofun⟩
  | succ fuel ih =>
    -- the cases are those of how many bytes are left: none, one, two or more
    cases s with
    | nil =>
      have hend : ¬ start < size := Nat.not_lt.mpr (Nat.le_of_eq hs.ends.symm)
      simp [isUTF8Loop, scan, hend]
    | cons a rest =>
      obtain ⟨hlt, ha⟩ := hs.head
      have hnext := ih rest (Nat.le_of_succ_le_succ hfuel) hs.tail
      have hascii := And.intro hnext.1 (inside_cons hlt hnext.2)
      cases rest with
      | nil =>
        have hend : start + 1 = size := hs.ends
        have h1 : start + 1 ≥ size := by omega
        have h2 : start + 2 ≥ size := by omega
        rw [isUTF8Loop, scan]
        simp only [if_pos hlt, ha, if_pos h1, if_pos h2]
        split_ifs
        · exact hascii
        all_goals exact ⟨rfl, inside_cons hlt nofun⟩
      | cons b rest =>
        obtain ⟨hlt1, hb⟩ := hs.tail.head
        have h1 : ¬ start + 1 ≥ size := by omega
        have hnext2 := ih rest (by simp only [List.length_cons] at hfuel; omega) hs.tail.tail
        have htwo := And.intro hnext2.1 (inside_cons hlt (inside_cons hlt1 hnext2.2))
        cases rest with
        | nil =>
          have hend : start + 2 = size := hs.ends
          have h2 : start + 2 ≥ size := by omega
          rw [isUTF8Loop, scan]
          simp only [if_pos hlt, ha, if_neg h1, hb, if_pos h2]
          split_ifs
          · exact hascii
          · exact ⟨rfl, inside_cons hlt nofun⟩
          · exact ⟨rfl, inside_cons hlt (inside_cons hlt1 nofun)⟩
          · exact htwo
          all_goals exact ⟨rfl, inside_cons hlt nofun⟩
        | cons c rest =>
          obtain ⟨hlt2, hc⟩ := hs.tail.tail.head
          have h2 : ¬ start + 2 ≥ size := by omega
          have hnext3 := ih rest (by simp only [List.length_cons] at hfuel; omega) hs.tail.tail.tail
          rw [isUTF8Loop, scan]
          simp only [if_pos hlt, ha, if_neg h1, hb, if_neg h2, hc]
          split_ifs
          · exact hascii
          · exact ⟨rfl, inside_cons hlt nofun⟩
          · exact ⟨rfl, inside_cons hlt (inside_cons hlt1 nofun)⟩
          · exact htwo
          · exact ⟨rfl, inside_cons hlt (inside_cons hlt1 nofun)⟩
          · exact ⟨rfl, inside_cons hlt (inside_cons hlt1 (inside_cons hlt2 nofun))⟩
          · exact ⟨hnext3.1, inside_cons hlt (inside_cons hlt1 (inside_cons hlt2 hnext3.2))⟩
          · exact ⟨rfl, inside_cons hlt nofun⟩

end Scan

section Accepted

/-- What a round of the loop takes for a character. -/
inductive Unit : List UInt8 → Prop
  | one {a : UInt8} : a < 0x80 → Unit [a]
  | two {a b : UInt8} : 0xC0 ≤ a → a < 0xE0 → Tail b → Unit [a, b]
  | three {a b c : UInt8} : 0xE0 ≤ a → a < 0xF0 → Tail b → Tail c → Unit [a, b, c]

/-- The beginning of a unit, where the buffer ends. -/
inductive Cut : List UInt8 → Prop
  | first {a : UInt8} : 0xC0 ≤ a → a < 0xF0 → Cut [a]
  | second {a b : UInt8} : 0xE0 ≤ a → a < 0xF0 → Cut [a, b]

/-- The units that RFC 3629 forbids: overlong forms and the surrogates. -/
inductive Forbidden : List UInt8 → Prop
  | overlongTwo {a b : UInt8} : a < 0xC2 → Forbidden [a, b]
  | overlongThree {b c : UInt8} : b < 0xA0 → Forbidden [0xE0, b, c]
  | surrogate {b c : UInt8} : 0xA0 ≤ b → Forbidden [0xED, b, c]

theorem and_c0_iff (b : UInt8) : b &&& 0xC0 = 0x80 ↔ Tail b := by
  revert b
  apply forall_byte
  decide +kernel

variable {u t s : List UInt8} {us : List (List UInt8)}

theorem Unit.length_eq (h : Unit u) : ∃ a t, u = a :: t ∧ u.length = width a := by
  cases h with
  | one ha => exact ⟨_, _, rfl, (width_one ha).symm⟩
  | two ha ha' => exact ⟨_, _, rfl, (width_two (by grind) ha').symm⟩
  | three ha ha' => exact ⟨_, _, rfl, (width_three ha ha').symm⟩

theorem Unit.char_iff (h : Unit u) : Char u ↔ ¬ Forbidden u := by
  constructor
  · intro hchar hforb
    cases hforb <;> cases hchar <;> grind
  · intro hforb
    cases h with
    | one ha => exact .one (by grind)
    | @two a b ha ha' hb =>
      have : ¬ a < 0xC2 := fun hlt => hforb (.overlongTwo hlt)
      exact .two (by grind) (by grind) hb
    | @three a b c ha ha' hb hc =>
      obtain ⟨hb1, hb2⟩ := hb
      by_cases h0 : a = 0xE0
      · subst h0
        have : ¬ b < 0xA0 := fun hlt => hforb (.overlongThree hlt)
        exact .e0 (by grind) hb2 hc
      by_cases hd : a = 0xED
      · subst hd
        have : ¬ 0xA0 ≤ b := fun hle => hforb (.surrogate hle)
        exact .ed hb1 (by grind) hc
      by_cases hlt : a < 0xED
      · exact .e1 (by grind) (by grind) ⟨hb1, hb2⟩ hc
      · exact .ee (by grind) (by grind) ⟨hb1, hb2⟩ hc

theorem Unit.lt_f0 (h : Unit u) : ∀ b ∈ u, b < 0xF0 := by
  cases h with
  | one ha => grind
  | two ha ha' hb => grind [Tail]
  | three ha ha' hb hc => grind [Tail]

theorem unit_of_char (h : Char u) (hlt : ∀ b ∈ u, b < 0xF0) : Unit u := by
  cases h with
  | one ha => exact .one (by grind)
  | two ha ha' hb => exact .two (by grind) (by grind) hb
  | e0 hb hb' hc => exact .three (by decide) (by decide) ⟨by grind, hb'⟩ hc
  | e1 ha ha' hb hc => exact .three (by grind) (by grind) hb hc
  | ed hb hb' hc => exact .three (by decide) (by decide) ⟨hb, by grind⟩ hc
  | ee ha ha' hb hc => exact .three (by grind) (by grind) hb hc
  | f0 => exact absurd (hlt 0xF0 List.mem_cons_self) (by decide)
  | f1 ha => exact absurd (hlt _ List.mem_cons_self) (by grind)
  | f4 => exact absurd (hlt 0xF4 List.mem_cons_self) (by decide)

theorem scan_unit (h : Unit u) : scan (u ++ s) = scan s := by
  cases h with
  | one ha =>
    rw [List.singleton_append, scan.eq_def]
    simp only [if_pos ha]
  | @two a b ha ha' hb =>
    have h1 : ¬ a < 0x80 := by grind
    have h2 : ¬ a < 0xC0 := by grind
    rw [scan.eq_def]
    simp [h1, h2, ha', (and_c0_iff b).mpr hb]
  | @three a b c ha ha' hb hc =>
    have h1 : ¬ a < 0x80 := by grind
    have h2 : ¬ a < 0xC0 := by grind
    have h3 : ¬ a < 0xE0 := by grind
    rw [scan.eq_def]
    simp [h1, h2, h3, ha', (and_c0_iff b).mpr hb, (and_c0_iff c).mpr hc]

theorem scan_cut (h : Cut t) : scan t = true := by
  cases h <;> grind [scan]

/-- Units, and maybe the beginning of one behind them. -/
def Units (s : List UInt8) : Prop :=
  ∃ (us : List (List UInt8)) (t : List UInt8), (∀ u ∈ us, Unit u) ∧ (t = [] ∨ Cut t) ∧ s = us.flatten ++ t

theorem Cut.units (h : Cut t) : Units t := ⟨[], t, nofun, .inr h, rfl⟩

theorem Unit.units (h : Unit u) (hs : Units s) : Units (u ++ s) := by
  obtain ⟨us, t, hus, ht, rfl⟩ := hs
  exact ⟨u :: us, t, List.forall_mem_cons.mpr ⟨h, hus⟩, ht, by rw [List.flatten_cons, List.append_assoc]⟩

theorem scan_iff : scan s = true ↔ Units s := by
  constructor
  · intro h
    -- the cases are the exits of the loop; those that return false cannot be taken
    fun_induction scan s
    case case1 => exact ⟨[], [], nofun, .inl rfl, rfl⟩
    case case2 ha ih => exact (Unit.one ha).units (ih h)
    case case4 ha ha' => exact (Cut.first (by grind) (by grind)).units
    case case6 b rest hb ih =>
      exact (Unit.two (by grind) (by grind) ((and_c0_iff b).mp (not_not.mp hb))).units (ih h)
    case case9 b c rest hb hc ih =>
      exact (Unit.three (by grind) (by grind) ((and_c0_iff b).mp (not_not.mp hb))
        ((and_c0_iff c).mp (not_not.mp hc))).units (ih h)
    case case10 rest _ _ _ _ hshort =>
      cases rest with
      | nil => exact (Cut.first (by grind) (by grind)).units
      | cons b rest =>
        cases rest with
        | nil => exact (Cut.second (by grind) (by grind)).units
        | cons c rest => exact (hshort b c rest rfl).elim
    all_goals cases h
  · rintro ⟨us, t, hus, ht, rfl⟩
    induction us with
    | nil =>
      obtain rfl | ht := ht
      · rfl
      · exact scan_cut ht
    | cons u us ih =>
      rw [List.flatten_cons, List.append_assoc, scan_unit (hus u List.mem_cons_self)]
      exact ih fun v hv => hus v (List.mem_cons_of_mem u hv)

/-- And they are UTF-8 where no unit is forbidden and none is cut off. -/
theorem octets_units_iff (hus : ∀ u ∈ us, Unit u) (ht : t = [] ∨ Cut t) :
    Octets (us.flatten ++ t) ↔ (∀ u ∈ us, ¬ Forbidden u) ∧ t = [] := by
  induction us with
  | nil =>
    obtain rfl | ht := ht
    · simpa using Octets.nil
    · have hshort : ¬ Octets t := by
        cases ht with
        | @first a ha ha' => exact not_octets_of_short (by unfold width; grind)
        | second ha ha' => exact not_octets_of_short (by simp [width_three ha ha'])
      have hne : t ≠ [] := by cases ht <;> simp
      simp [hshort, hne]
  | cons u us ih =>
    have hu := hus u List.mem_cons_self
    obtain ⟨a, w, rfl, hlen⟩ := hu.length_eq
    rw [List.flatten_cons, List.append_assoc, octets_append_iff hlen, hu.char_iff,
      ih fun v hv => hus v (List.mem_cons_of_mem _ hv), List.forall_mem_cons, and_assoc]

theorem octets_units (h : Octets s) (hlt : ∀ b ∈ s, b < 0xF0) : Units s := by
  induction h with
  | nil => exact ⟨[], [], nofun, .inl rfl, rfl⟩
  | cons hchar _ ih =>
    rw [List.forall_mem_append] at hlt
    exact (unit_of_char hchar hlt.1).units (ih hlt.2)

end Accepted

section Recognised

/-- Accepted, but not UTF-8: a character is cut off at the end of the buffer or one of
the units is forbidden. -/
def Lax (s : List UInt8) : Prop :=
  ∃ (us : List (List UInt8)) (t : List UInt8), (∀ u ∈ us, Unit u) ∧ s = us.flatten ++ t ∧
    (Cut t ∨ t = [] ∧ ∃ u ∈ us, Forbidden u)

/-- UTF-8 with a character of four bytes, which is not accepted. -/
def FourByte (s : List UInt8) : Prop := Octets s ∧ ∃ b ∈ s, 0xF0 ≤ b

variable {s : List UInt8}

theorem lax_iff : Lax s ↔ scan s = true ∧ ¬ Octets s := by
  constructor
  · rintro ⟨us, t, hus, rfl, hbad⟩
    have ht : t = [] ∨ Cut t := hbad.symm.imp_left And.left
    refine ⟨scan_iff.mpr ⟨us, t, hus, ht, rfl⟩, ?_⟩
    rw [octets_units_iff hus ht]
    rintro ⟨hgood, rfl⟩
    obtain hcut | ⟨-, u, hu, hforb⟩ := hbad
    · cases hcut
    · exact hgood u hu hforb
  · rintro ⟨hscan, hocts⟩
    obtain ⟨us, t, hus, ht, rfl⟩ := scan_iff.mp hscan
    refine ⟨us, t, hus, rfl, ?_⟩
    rw [octets_units_iff hus ht] at hocts
    obtain rfl | hcut := ht
    · right
      simpa using hocts
    · exact .inl hcut

theorem fourByte_iff : FourByte s ↔ Octets s ∧ scan s ≠ true := by
  refine and_congr_right fun hocts => ?_
  constructor
  · rintro ⟨b, hb, hge⟩ hscan
    obtain ⟨us, t, hus, ht, rfl⟩ := scan_iff.mp hscan
    obtain ⟨-, rfl⟩ := (octets_units_iff hus ht).mp hocts
    rw [List.append_nil, List.mem_flatten] at hb
    obtain ⟨u, hu, hbu⟩ := hb
    have := (hus u hu).lt_f0 b hbu
    grind
  · intro hscan
    by_contra hlt
    push Not at hlt
    exact hscan (scan_iff.mpr (octets_units hocts hlt))

theorem buffer_stands (buffer : List UInt8) (beyond : ℕ → UInt8) :
    Stands (bufferAt buffer beyond) buffer.length 0 buffer := by
  refine ⟨Nat.zero_add _, fun k hk => ?_⟩
  rw [Nat.zero_add, bufferAt, if_pos hk]

/-- `IsUTF8` reads inside of the buffer and recognises UTF-8, except for the buffers that
are accepted though `Lax` and those refused for a character of four bytes. -/
theorem isUTF8_recognises_iff (buffer : List UInt8) (beyond : ℕ → UInt8) :
    ((isUTF8 buffer beyond = true ↔ Octets buffer) ∧ ∀ k ∈ isUTF8Reads buffer beyond, k < buffer.length) ↔
      ¬ Lax buffer ∧ ¬ FourByte buffer := by
  obtain ⟨hscan, hreads⟩ := isUTF8Loop_eq_scan buffer (Nat.le_refl _) (buffer_stands buffer beyond)
  unfold isUTF8 isUTF8Reads
  rw [and_iff_left hreads, hscan, lax_iff, fourByte_iff]
  tauto

/-- `U+1F600` is refused, and `C3`, the first byte of a character of two, accepted. -/
theorem isUTF8_emoji_cut :
    (isUTF8 [0xF0, 0x9F, 0x98, 0x80] (fun _ => 0) = false ∧ Octets [0xF0, 0x9F, 0x98, 0x80]) ∧
      isUTF8 [0xC3] (fun _ => 0) = true ∧ ¬ Octets [0xC3] := by
  refine ⟨⟨rfl, ?_⟩, rfl, not_octets_of_short (by decide)⟩
  exact .cons (.f0 (by decide) (by decide) (by decide) (by decide)) .nil

end Recognised

end CppBase.Utility.UrlCodec
