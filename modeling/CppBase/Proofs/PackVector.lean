import CppBase.Lib.Machine
import CppBase.Lib.Slice
import CppBase.Sanity.PackEffects

/-! `PackBuffer` against a vector of bytes. All calls but one do what they do to
the vector; `replace` writes to the start of the buffer wherever it was asked to write. -/

namespace CppBase.Packet.PackBuffer

open CppBase.Lib

section Calls

inductive Op where
  | append (data : List UInt8)
  | seek (pos : ℕ)
  | replace (pos : ℕ) (rep : List UInt8)
  | reserve (n : ℕ)
  | clear
  | release
  deriving DecidableEq

def attempt (b : PackBuffer) : Except PackError PackBuffer → Option PackError × PackBuffer
  | .ok b' => (none, b')
  | .error e => (some e, b)

def call (b : PackBuffer) : Op → Option PackError × PackBuffer
  | .append data => (none, b.append data)
  | .seek pos => b.attempt (b.seek pos)
  | .replace pos rep => b.attempt (b.replace pos rep)
  | .reserve n => (none, b.reserve n)
  | .clear => (none, b.clear)
  | .release => (none, b.release.2)

/-- The same call on a vector. A call that is out of range changes nothing. -/
def Op.vector (v : List UInt8) : Op → List UInt8
  | .append data => v ++ data
  | .seek pos => v.take pos
  | .replace pos rep => if pos + rep.length ≤ v.length then patch v pos rep else v
  | .reserve _ => v
  | .clear => []
  | .release => []

/-- A `seek` that makes unspecified bytes part of the contents. -/
def Exposes (b : PackBuffer) : Op → Prop
  | .seek pos => b.len < pos ∧ pos ≤ b.cap
  | _ => False

/-- A `replace` that does not throw has a position and a size as in `P`. -/
def ReplacesAt (P : ℕ → ℕ → Prop) (b : PackBuffer) : Op → Prop
  | .replace pos rep => pos + rep.length ≤ b.len → P pos rep.length
  | _ => True

structure Refines (b : PackBuffer) (v : List UInt8) : Prop where
  len_le : b.len ≤ b.cap
  contents : b.contents = v.map some
  throws : ∀ op e, (b.call op).1 = some e → (b.call op).2 = b

end Calls

section Steps

variable {b : PackBuffer} {v : List UInt8}

theorem call_throws (b : PackBuffer) (op : Op) (e : PackError) (h : (b.call op).1 = some e) : (b.call op).2 = b := by
  have hattempt : ∀ r, (b.attempt r).1 = some e → (b.attempt r).2 = b := by
    rintro (e' | b') hr
    · rfl
    · cases hr
  cases op with
  | seek pos => exact hattempt _ h
  | replace pos rep => exact hattempt _ h
  | _ => cases h

theorem refines_of_contents (h : b.contents = v.map some) : b.Refines v := ⟨b.len_le, h, b.call_throws⟩

theorem len_eq_length (h : b.contents = v.map some) : b.len = v.length := by
  rw [← b.length_contents, h, List.length_map]

theorem contents_reserve (b : PackBuffer) (n : ℕ) : (b.reserve n).contents = b.contents := by
  unfold reserve
  split_ifs
  · rfl
  · exact List.take_append_of_le_length b.len_le

theorem contents_seek (h : b.contents = v.map some) {pos : ℕ} (hin : ¬ b.Exposes (.seek pos)) :
    (b.call (.seek pos)).2.contents = ((Op.seek pos).vector v).map some := by
  have hlen := len_eq_length h
  have hle : b.len ≤ b.cap := b.len_le
  have hscope : pos ≤ b.len ∨ b.cap < pos := by
    by_contra hnot
    exact hin ⟨by omega, by omega⟩
  rcases hscope with hpos | hpos
  · obtain ⟨b', hb', hbuf, hlen'⟩ := b.seek_eq (hpos.trans hle)
    have hcut : b'.contents = b.contents.take pos := by
      rw [PackBuffer.contents, PackBuffer.contents, hbuf, hlen', List.take_take, Nat.min_eq_left hpos]
    simp only [call, hb', attempt, Op.vector]
    rw [hcut, h, List.map_take]
  · have hthrow : b.seek pos = .error ⟨"seek buffer overflow"⟩ := dif_pos hpos
    simp only [call, hthrow, attempt, Op.vector]
    rw [h, List.take_of_length_le (by omega)]

/-- Where a replacement really goes. -/
theorem contents_replace (h : b.contents = v.map some) {pos : ℕ} {rep : List UInt8}
    (hin : pos + rep.length ≤ b.len) : (b.call (.replace pos rep)).2.contents = (patch v 0 rep).map some := by
  have hfit : rep.length ≤ b.len := by omega
  obtain ⟨b', hb', -, hcontents⟩ := b.replace_zero_eq hfit
  have hbuf : b.replace pos rep = .ok b' := by
    rw [← hb']
    unfold replace
    rw [dif_neg (by omega), dif_neg (by omega)]
  simp only [call, hbuf, attempt]
  rw [hcontents, h]
  simp [patch]

/-- A replacement that writes nothing, or writes to the start, is the one asked for. -/
theorem contents_replace_start (h : b.contents = v.map some) {pos : ℕ} {rep : List UInt8}
    (hstart : pos + rep.length ≤ b.len → pos = 0 ∨ rep.length = 0) :
    (b.call (.replace pos rep)).2.contents = ((Op.replace pos rep).vector v).map some := by
  have hlen := len_eq_length h
  by_cases hin : pos + rep.length ≤ b.len
  · rw [contents_replace h hin, Op.vector, if_pos (by omega)]
    rcases hstart hin with rfl | hnil
    · rfl
    · obtain rfl := List.eq_nil_of_length_eq_zero hnil
      simp [patch]
  · have hthrow : b.replace pos rep = .error ⟨"replace buffer overflow"⟩ := dif_pos (by omega)
    simp only [call, hthrow, attempt, Op.vector]
    rw [if_neg (by omega), h]

theorem contents_call (h : b.contents = v.map some) {op : Op} (hin : ¬ b.Exposes op)
    (hat : b.ReplacesAt (fun pos n => pos = 0 ∨ n = 0) op) : (b.call op).2.contents = (op.vector v).map some := by
  cases op with
  | append data => simp only [call, Op.vector, contents_append, h, List.map_append]
  | seek pos => exact contents_seek h hin
  | replace pos rep => exact contents_replace_start h hat
  | reserve n => exact (b.contents_reserve n).trans h
  | clear => simp [call, Op.vector, PackBuffer.contents, PackBuffer.clear]
  | release => rfl

end Steps

/-- The runs whose calls of `replace` are as in `P`. -/
def Runs (P : ℕ → ℕ → Prop) : PackBuffer → List Op → PackBuffer → Prop :=
  Run (fun b op => (b.call op).2) (fun b op => ¬ b.Exposes op ∧ b.ReplacesAt P op)

theorem runs_refines {P : ℕ → ℕ → Prop} (hP : ∀ pos n, P pos n → pos = 0 ∨ n = 0) {n : ℕ} {ops : List Op}
    {b : PackBuffer} (h : Runs P (ofCap n) ops b) : b.Refines (ops.foldl Op.vector []) := by
  apply refines_of_contents
  apply h.simulates (R := fun (v : List UInt8) b => b.contents = v.map some) _ (by simp [PackBuffer.contents, ofCap])
  rintro v b op ⟨hin, hat⟩ hv
  apply contents_call hv hin
  cases op with
  | replace pos rep => exact fun hle => hP _ _ (hat hle)
  | _ => trivial

/-- Any other replacement goes wrong on some contents. -/
theorem not_refines_replace {P : ℕ → ℕ → Prop} {pos n : ℕ} (hP : P pos n) (hpos : pos ≠ 0) (hn : n ≠ 0) :
    ∃ ops b, Runs P (ofCap 256) ops b ∧ ¬ b.Refines (ops.foldl Op.vector []) := by
  let zeros : List UInt8 := List.replicate (pos + n) 0
  let ones : List UInt8 := List.replicate n 1
  have happend : ((ofCap 256).call (.append zeros)).2.contents = zeros.map some :=
    contents_append _ _
  have hin : pos + ones.length ≤ ((ofCap 256).call (.append zeros)).2.len := by
    rw [len_eq_length happend]
    simp [zeros, ones]
  refine ⟨[.append zeros, .replace pos ones], _,
    .cons ⟨not_false, trivial⟩ (.cons ⟨not_false, fun _ => ?_⟩ (.nil _)), ?_⟩
  · rwa [show ones.length = n from List.length_replicate]
  · intro hrefines
    -- the first byte of the buffer is a one
    obtain ⟨k, rfl⟩ := Nat.exists_eq_succ_of_ne_zero hn
    obtain ⟨j, rfl⟩ := Nat.exists_eq_succ_of_ne_zero hpos
    have hbytes := (contents_replace happend hin).symm.trans hrefines.contents
    simp [Op.vector, patch, zeros, ones, List.replicate_succ] at hbytes

/-- The calls of `replace` for which every run refines the vector are those to
the start of the buffer and those of no bytes. -/
theorem replace_refines_iff (P : ℕ → ℕ → Prop) :
    (∀ n ops b, Runs P (ofCap n) ops b → b.Refines (ops.foldl Op.vector [])) ↔
      ∀ pos n, P pos n → pos = 0 ∨ n = 0 := by
  constructor
  · intro hall pos n hP
    by_contra hnot
    obtain ⟨hpos, hn⟩ := not_or.mp hnot
    obtain ⟨ops, b, hruns, hbad⟩ := not_refines_replace hP hpos hn
    exact hbad (hall _ _ _ hruns)
  · intro hP n ops b hruns
    exact runs_refines hP hruns

theorem replace_refines_header :
    ∃ b, Runs (fun pos _ => pos = 0) (ofCap 256) [.append [0, 0, 1], .replace 0 [7, 7]] b ∧ b.Refines [7, 7, 1] := by
  have hruns : Runs (fun pos _ => pos = 0) (ofCap 256) [.append [0, 0, 1], .replace 0 [7, 7]] _ :=
    .cons ⟨not_false, trivial⟩ (.cons ⟨not_false, fun _ => rfl⟩ (.nil _))
  exact ⟨_, hruns, (replace_refines_iff fun pos _ => pos = 0).mpr (fun _ _ h => .inl h) _ _ _ hruns⟩

/-- A length field patched in the middle of a message ends up at its start. -/
theorem replace_inside_overwrites_start :
    ∃ b, Runs (fun _ _ => True) (ofCap 256) [.append [1, 2, 3], .replace 1 [9]] b ∧
      b.contents = [some 9, some 2, some 3] ∧
      [Op.append [1, 2, 3], .replace 1 [9]].foldl Op.vector [] = [1, 9, 3] := by
  refine ⟨_, .cons ⟨not_false, trivial⟩ (.cons ⟨not_false, fun _ => trivial⟩ (.nil _)), ?_, rfl⟩
  decide +kernel

end CppBase.Packet.PackBuffer
