import Mathlib.Order.Lattice
import CppBase.Spec.IOBuffer

/-! `IOBuffer` as a stream of bytes: what is unread is what was written since the
last `clear`, less what `has_read` has consumed, wherever the two positions are
and whenever `grow` moves the bytes. -/

namespace CppBase.Core.IOBuffer

open CppBase.Lib

section SizeT

variable {a b : ℕ}

theorem add_eq (h : a + b < sizeMax) : add a b = a + b := Nat.mod_eq_of_lt h

theorem sub_eq (h : b ≤ a) (ha : a < sizeMax) : sub a b = a - b := by
  rw [sub, show a + sizeMax - b = a - b + sizeMax by omega, Nat.add_mod_right, Nat.mod_eq_of_lt (by omega)]

theorem mul_eq (h : a * b < sizeMax) : mul a b = a * b := Nat.mod_eq_of_lt h

end SizeT

/-- The positions are in order and inside the allocation. -/
structure Inv (s : IOBuffer) : Prop where
  order : s.readpos ≤ s.writepos
  bound : s.writepos ≤ s.cap
  length : s.buf.length = s.cap
  cap_lt : s.cap < sizeMax

variable {s : IOBuffer} {n : ℕ} {d : List UInt8}

section Operations

theorem inv_create (fresh : ℕ → UInt8) (h : n < sizeMax) : (create fresh n).Inv :=
  ⟨le_rfl, Nat.zero_le _, by simp [create, malloc], h⟩

theorem Inv.size_eq (h : s.Inv) : s.size = s.writepos - s.readpos := sub_eq h.order (h.bound.trans_lt h.cap_lt)

theorem Inv.writeSize_eq (h : s.Inv) : s.writeSize = s.cap - s.writepos := sub_eq h.bound h.cap_lt

theorem Inv.length_data (h : s.Inv) : s.data.length = s.size := by
  have := h.order
  have := h.bound
  exact length_slice (by rw [h.length, h.size_eq]; omega)

theorem Inv.hasRead (h : s.Inv) (hn : n ≤ s.size) :
    ∃ t, s.hasRead n = .ok t ∧ t.Inv ∧ t.data = s.data.drop n := by
  have hord := h.order
  have hlt := h.bound.trans_lt h.cap_lt
  rw [h.size_eq] at hn
  have hadd : add s.readpos n = s.readpos + n := add_eq (by omega)
  have hle : s.readpos + n ≤ s.writepos := by omega
  have hinv : Inv { s with readpos := s.readpos + n } := ⟨hle, h.bound, h.length, h.cap_lt⟩
  refine ⟨{ s with readpos := s.readpos + n }, ?_, hinv, ?_⟩
  · simp only [IOBuffer.hasRead, hadd, if_pos hle]
  · rw [data, data, hinv.size_eq, h.size_eq, ← slice_drop, Nat.sub_sub]

theorem Inv.clear (h : s.Inv) : s.clear.Inv ∧ s.clear.data = [] :=
  ⟨⟨le_rfl, Nat.zero_le _, h.length, h.cap_lt⟩, by simp [IOBuffer.clear, data, size, sub, slice]⟩

theorem Inv.written (h : s.Inv) (hd : s.writepos + d.length ≤ s.cap) :
    memcpy s.buf s.writepos d = .ok (patch s.buf s.writepos d) ∧ add s.writepos d.length = s.writepos + d.length ∧
      Inv { s with buf := patch s.buf s.writepos d, writepos := s.writepos + d.length } ∧
      data { s with buf := patch s.buf s.writepos d, writepos := s.writepos + d.length } = s.data ++ d := by
  have hord := h.order
  have hlt := h.cap_lt
  have hroom : s.writepos + d.length ≤ s.buf.length := by rwa [h.length]
  have hinv : Inv { s with buf := patch s.buf s.writepos d, writepos := s.writepos + d.length } :=
    ⟨by show s.readpos ≤ s.writepos + d.length; omega, hd, (length_patch hroom).trans h.length, h.cap_lt⟩
  refine ⟨if_pos hroom, add_eq (by omega), hinv, ?_⟩
  rw [data, data, hinv.size_eq, h.size_eq]
  exact slice_patch h.order hroom

theorem Inv.writeDirect (h : s.Inv) (hd : d.length ≤ s.writeSize) :
    ∃ t, s.writeDirect d = .ok t ∧ t.Inv ∧ t.data = s.data ++ d := by
  have hbound := h.bound
  rw [h.writeSize_eq] at hd
  have hroom : s.writepos + d.length ≤ s.cap := by omega
  obtain ⟨hcopy, hadd, hinv, hdata⟩ := h.written hroom
  refine ⟨_, ?_, hinv, hdata⟩
  simp only [IOBuffer.writeDirect, hcopy, ok_bind, hasWrite, hadd, if_pos hroom]

end Operations

section Growing

/-- `memmove` in `grow`, where `t` is the buffer after it. -/
theorem Inv.moved (h : s.Inv) {t : IOBuffer}
    (ht : t = { s with buf := patch s.buf 0 s.data, writepos := s.size, readpos := 0 }) :
    memmove s.buf 0 s.readpos s.size = .ok t.buf ∧ t.Inv ∧ t.data = s.data := by
  subst ht
  have hord := h.order
  have hbound := h.bound
  have hsize := h.size_eq
  have hlen := h.length
  have hin : s.readpos + s.size ≤ s.buf.length := by omega
  have hdata : 0 + s.data.length ≤ s.buf.length := by
    rw [h.length_data]
    omega
  have hinv : Inv { s with buf := patch s.buf 0 s.data, writepos := s.size, readpos := 0 } :=
    ⟨Nat.zero_le _, by show s.size ≤ s.cap; omega, (length_patch hdata).trans hlen, h.cap_lt⟩
  refine ⟨?_, hinv, ?_⟩
  · rw [memmove, if_pos hin, ← data, memcpy, if_pos hdata]
  · rw [data, hinv.size_eq, Nat.sub_zero, ← h.length_data, slice_patch_zero]

/-- The unread bytes are the same after they have moved to the start. -/
theorem Inv.compact (h : s.Inv) : ∃ t, s.compact = .ok t ∧ t.Inv ∧ t.readpos = 0 ∧ t.writepos = s.size ∧
    t.cap = s.cap ∧ t.data = s.data := by
  have hord := h.order
  have hbound := h.bound
  have hsize := h.size_eq
  unfold IOBuffer.compact
  by_cases hread : s.readpos > 0
  · rw [if_pos hread]
    by_cases hunread : s.writepos > s.readpos
    · obtain ⟨hmove, hinv, hdata⟩ := h.moved rfl
      refine ⟨_, ?_, hinv, rfl, rfl, rfl, hdata⟩
      rw [if_pos hunread, ← size, hmove, ok_bind]
    · have hinv : Inv { s with writepos := s.size, readpos := 0 } :=
        ⟨Nat.zero_le _, by show s.size ≤ s.cap; omega, h.length, h.cap_lt⟩
      refine ⟨{ s with writepos := s.size, readpos := 0 }, ?_, hinv, rfl, rfl, rfl, ?_⟩
      · rw [if_neg hunread, ok_bind, ← size]
      · have hnil : s.size = 0 := by omega
        rw [data, data, hinv.size_eq, hnil]
        rfl
  · rw [if_neg hread]
    exact ⟨s, rfl, h, by omega, by omega, rfl, rfl⟩

theorem realloc_eq (fresh : ℕ → UInt8) {buf : List UInt8} (h : buf.length ≤ n) :
    realloc fresh buf n = buf ++ malloc fresh (n - buf.length) := by
  rw [realloc, List.take_of_length_le h]

theorem length_realloc (fresh : ℕ → UInt8) {buf : List UInt8} (h : buf.length ≤ n) :
    (realloc fresh buf n).length = n := by
  rw [realloc_eq fresh h, List.length_append, malloc, List.length_map, List.length_range]
  exact Nat.add_sub_of_le h

theorem Inv.realloc (h : s.Inv) (fresh : ℕ → UInt8) {ns : ℕ} (hns : s.cap ≤ ns) (hlt : ns < sizeMax) :
    Inv { s with buf := IOBuffer.realloc fresh s.buf ns, cap := ns } ∧
      data { s with buf := IOBuffer.realloc fresh s.buf ns, cap := ns } = s.data := by
  have hlen : s.buf.length ≤ ns := h.length.trans_le hns
  have hinv : Inv { s with buf := IOBuffer.realloc fresh s.buf ns, cap := ns } :=
    ⟨h.order, h.bound.trans hns, length_realloc fresh hlen, hlt⟩
  refine ⟨hinv, ?_⟩
  rw [data, data, hinv.size_eq, h.size_eq, realloc_eq fresh hlen]
  refine slice_append ?_ _
  rw [h.length]
  exact (Nat.add_sub_of_le h.order).trans_le h.bound

theorem Inv.grow (h : s.Inv) (fresh : ℕ → UInt8) (hsum : s.size + n < sizeMax)
    (hdouble : s.cap < s.size + n → s.cap * 2 < sizeMax) :
    ∃ t, s.grow fresh n = .ok t ∧ t.Inv ∧ t.data = s.data ∧ t.writepos + n ≤ t.cap := by
  obtain ⟨t, ht, hinv, hread, hwrite, hcap, hdata⟩ := h.compact
  have hadd : add t.writepos n = t.writepos + n := add_eq (by omega)
  rw [IOBuffer.grow, ht, ok_bind, hadd]
  by_cases hfull : t.writepos + n > t.cap
  · have hmul : mul t.cap 2 = t.cap * 2 := mul_eq (by rw [hcap]; exact hdouble (by omega))
    have hlt : t.cap * 2 < sizeMax := by rw [hcap]; exact hdouble (by omega)
    have hns : t.cap ≤ max (t.writepos + n) (t.cap * 2) := hfull.le.trans (le_max_left _ _)
    obtain ⟨hinv', hdata'⟩ := hinv.realloc fresh hns (max_lt (by omega) hlt)
    rw [if_pos hfull, hmul]
    exact ⟨_, rfl, hinv', hdata'.trans hdata, le_max_left _ _⟩
  · rw [if_neg hfull]
    exact ⟨t, rfl, hinv, hdata, by omega⟩

theorem Inv.append (h : s.Inv) (fresh : ℕ → UInt8) (hsum : s.writepos + d.length < sizeMax)
    (hdouble : s.cap < s.size + d.length → s.cap * 2 < sizeMax) :
    ∃ t, s.append fresh d = .ok t ∧ t.Inv ∧ t.data = s.data ++ d := by
  obtain ⟨t, ht, hinv, hdata, hroom⟩ : ∃ t, s.makeRoom fresh d.length = .ok t ∧ t.Inv ∧ t.data = s.data ∧
      t.writepos + d.length ≤ t.cap := by
    rw [makeRoom, add_eq hsum]
    by_cases hfull : s.writepos + d.length > s.cap
    · rw [if_pos hfull]
      have := h.size_eq
      exact h.grow fresh (by omega) hdouble
    · rw [if_neg hfull]
      exact ⟨s, rfl, h, rfl, by omega⟩
  obtain ⟨hcopy, hadd, hinv', hdata'⟩ := hinv.written hroom
  refine ⟨_, ?_, hinv', hdata'.trans (by rw [hdata])⟩
  rw [IOBuffer.append, ht, ok_bind, hcopy, ok_bind, hadd]

end Growing

section Stream

/-- What was written since the last `clear`, and how much of it `has_read` has consumed. -/
structure Stream where
  written : List UInt8
  consumed : ℕ

def Stream.unread (x : Stream) : List UInt8 := x.written.drop x.consumed

def Stream.step (x : Stream) : Op → Stream
  | .append _ data => { x with written := x.written ++ data }
  | .writeDirect data => { x with written := x.written ++ data }
  | .hasRead n => { x with consumed := x.consumed + n }
  | .grow _ _ => x
  | .clear => ⟨[], 0⟩

def stream (ops : List Op) : Stream := ops.foldl Stream.step ⟨[], 0⟩

/-- The callers keep to what is there, and no sum or product of sizes that the call computes overflows. -/
def Allowed (s : IOBuffer) : Op → Prop
  | .append _ data => s.writepos + data.length < sizeMax ∧ (s.cap < s.size + data.length → s.cap * 2 < sizeMax)
  | .writeDirect data => data.length ≤ s.writeSize
  | .hasRead n => n ≤ s.size
  | .grow _ n => s.size + n < sizeMax ∧ (s.cap < s.size + n → s.cap * 2 < sizeMax)
  | .clear => True

instance decidableAllowed (s : IOBuffer) : (op : Op) → Decidable (s.Allowed op)
  | .append _ data =>
    inferInstanceAs (Decidable (s.writepos + data.length < sizeMax ∧
      (s.cap < s.size + data.length → s.cap * 2 < sizeMax)))
  | .writeDirect data => inferInstanceAs (Decidable (data.length ≤ s.writeSize))
  | .hasRead n => inferInstanceAs (Decidable (n ≤ s.size))
  | .grow _ n => inferInstanceAs (Decidable (s.size + n < sizeMax ∧ (s.cap < s.size + n → s.cap * 2 < sizeMax)))
  | .clear => isTrue trivial

structure Holds (s : IOBuffer) (x : Stream) : Prop where
  inv : s.Inv
  data : s.data = x.unread
  consumed : x.consumed ≤ x.written.length

theorem Holds.length_written {x : Stream} (h : s.Holds x) : x.consumed + s.size = x.written.length := by
  have hlen := h.inv.length_data
  have := h.consumed
  rw [h.data, Stream.unread, List.length_drop] at hlen
  omega

theorem Holds.written {t : IOBuffer} {x : Stream} (h : s.Holds x) (hinv : t.Inv) (hdata : t.data = s.data ++ d) :
    t.Holds { x with written := x.written ++ d } := by
  refine ⟨hinv, ?_, ?_⟩
  · rw [hdata, h.data]
    exact (List.drop_append_of_le_length h.consumed).symm
  · rw [List.length_append]
    exact Nat.le_add_right_of_le h.consumed

theorem Holds.step {x : Stream} {op : Op} (h : s.Holds x) (hop : s.Allowed op) :
    ∃ t, s.step op = .ok t ∧ t.Holds (x.step op) := by
  cases op with
  | append fresh d =>
    obtain ⟨t, ht, hinv, hdata⟩ := h.inv.append fresh hop.1 hop.2
    exact ⟨t, ht, h.written hinv hdata⟩
  | writeDirect d =>
    obtain ⟨t, ht, hinv, hdata⟩ := h.inv.writeDirect hop
    exact ⟨t, ht, h.written hinv hdata⟩
  | hasRead n =>
    obtain ⟨t, ht, hinv, hdata⟩ := h.inv.hasRead hop
    have hlen := h.length_written
    have hn : n ≤ s.size := hop
    refine ⟨t, ht, hinv, ?_, by show x.consumed + n ≤ x.written.length; omega⟩
    rw [hdata, h.data, Stream.unread, List.drop_drop]
    rfl
  | grow fresh n =>
    obtain ⟨t, ht, hinv, hdata, -⟩ := h.inv.grow fresh hop.1 hop.2
    exact ⟨t, ht, hinv, hdata.trans h.data, h.consumed⟩
  | clear => exact ⟨s.clear, rfl, h.inv.clear.1, h.inv.clear.2, le_rfl⟩

/-- The calls go through, with the positions in order, the unread bytes those of
the stream and, after each `grow`, the room it was asked for. -/
structure Lossless (s₀ : IOBuffer) (ops : List Op) : Prop where
  run : ∃ s, runAll step s₀ ops = .ok s ∧ s.readpos ≤ s.writepos ∧ s.writepos ≤ s.cap ∧
    s.data = (stream ops).unread
  grown : ∀ pre fresh n post s t, ops = pre ++ .grow fresh n :: post → runAll step s₀ pre = .ok s →
    s.grow fresh n = .ok t → n ≤ t.writeSize ∧ t.data = s.data

theorem holds_of_run {fresh : ℕ → UInt8} {ops : List Op} (hn : n < sizeMax)
    (h : Along step Allowed (create fresh n) ops) :
    ∃ s, runAll step (create fresh n) ops = .ok s ∧ s.Holds (stream ops) := by
  refine h.simulates (fun _ _ _ hs hop => hs.step hop) ⟨inv_create fresh hn, ?_, le_rfl⟩
  simp [create, data, size, sub, slice]
  rfl

theorem iobuffer_lossless (fresh : ℕ → UInt8) {ops : List Op} (hn : n < sizeMax)
    (h : Along step Allowed (create fresh n) ops) : (create fresh n).Lossless ops := by
  refine ⟨?_, ?_⟩
  · obtain ⟨s, hs, hold⟩ := holds_of_run hn h
    exact ⟨s, hs, hold.inv.order, hold.inv.bound, hold.data⟩
  · rintro pre fresh' k post s t rfl hpre ht
    obtain ⟨s', hs', hold⟩ := holds_of_run hn h.of_append
    obtain rfl := Except.ok.inj (hpre.symm.trans hs')
    obtain ⟨hsum, hdouble⟩ := h pre (.grow fresh' k) post s rfl hpre
    obtain ⟨t', ht', hinv, hdata, hroom⟩ := hold.inv.grow fresh' hsum hdouble
    obtain rfl := Except.ok.inj (ht.symm.trans ht')
    rw [hinv.writeSize_eq]
    exact ⟨by omega, hdata⟩

def session : List Op :=
  [.append (fun _ => 0) [1, 2, 3], .hasRead 2, .append (fun _ => 0) [4, 5, 6, 7], .grow (fun _ => 0) 6,
    .writeDirect [8, 9], .hasRead 1]

theorem iobuffer_lossless_session : (create (fun _ => 255) 4).Lossless session ∧
    (stream session).unread = [4, 5, 6, 7, 8, 9] := by
  refine ⟨iobuffer_lossless (fun _ => 255) (by decide) ?_, rfl⟩
  refine (along_cons (t := ⟨[1, 2, 3, 255], 4, 0, 3⟩) rfl).mpr ⟨by decide, ?_⟩
  refine (along_cons (t := ⟨[1, 2, 3, 255], 4, 2, 3⟩) rfl).mpr ⟨by decide, ?_⟩
  refine (along_cons (t := ⟨[3, 4, 5, 6, 7, 0, 0, 0], 8, 0, 5⟩) rfl).mpr ⟨by decide, ?_⟩
  refine (along_cons (t := ⟨[3, 4, 5, 6, 7, 0, 0, 0, 0, 0, 0, 0, 0, 0, 0, 0], 16, 0, 5⟩) rfl).mpr ⟨by decide, ?_⟩
  refine (along_cons (t := ⟨[3, 4, 5, 6, 7, 8, 9, 0, 0, 0, 0, 0, 0, 0, 0, 0], 16, 0, 7⟩) rfl).mpr ⟨by decide, ?_⟩
  refine (along_cons (t := ⟨[3, 4, 5, 6, 7, 8, 9, 0, 0, 0, 0, 0, 0, 0, 0, 0], 16, 1, 7⟩) rfl).mpr ⟨by decide, ?_⟩
  exact along_nil

end Stream

end CppBase.Core.IOBuffer
