import CppBase.Proofs.BufferDeque
import CppBase.Spec.TcpConnection

/-! What `sendInLoop` and `handleWrite` can do to a `TcpConnection`, said once. -/

namespace CppBase.Muduo.TcpConnection

open CppBase.Lib

variable {ι : Type} {s t : TcpConnection ι} {u : Option ι} {m rest : List UInt8} {w : Wrote}

/-- What the socket may answer: no more than it was given; and once shut it takes nothing. -/
def Wrote.possible (w : Wrote) (shut : Bool) (len : ℕ) : Prop :=
  (∀ n, w = .bytes n → n ≤ len) ∧ (shut = true → w = .broken ∨ len = 0)

/-- The functors that only call back. -/
def Functor.callsBack : Functor ι → Bool
  | .writeComplete | .highWaterMark _ => true
  | _ => false

theorem readableBytes_eq_zero_iff {b : Buffer} : b.readableBytes = 0 ↔ b.contents = [] := by
  rw [← b.length_contents, List.length_eq_zero_iff]

section Sending

theorem buffer_ok (s : TcpConnection ι) (rest : List UInt8) :
    ∃ out q, s.buffer rest = .ok { s with outputBuffer := out, isWriting := true, pending := s.pending ++ q } ∧
      out.contents = s.outputBuffer.contents ++ rest ∧ ∀ f ∈ q, f.callsBack = true := by
  obtain ⟨out, hout, hcontents, -⟩ := s.outputBuffer.append_ok rest
  unfold buffer
  dsimp only
  split
  · refine ⟨out, [.highWaterMark (s.outputBuffer.readableBytes + rest.length)], ?_, hcontents, ?_⟩
    · rw [queueInLoop, hout]
      rfl
    · simp [Functor.callsBack]
  · refine ⟨out, [], ?_, hcontents, nofun⟩
    rw [hout]
    simp [lift]

/-- What becomes of a message in `sendInLoop`. -/
inductive Sent (s : TcpConnection ι) (u : Option ι) (m : List UInt8) : TcpConnection ι → Prop
  /-- The connection is down, or the socket is broken. -/
  | dropped : Sent s u m { s with processed := s.processed ++ [⟨u, m, true⟩] }
  /-- All of it is written, or there is nothing to write. -/
  | written (q : List (Functor ι)) (hq : ∀ f ∈ q, f.callsBack = true)
      (hfirst : s.outputBuffer.contents = [] ∨ m = []) (hshut : s.shut = true → m = []) :
      Sent s u m { s with
        wire := s.wire ++ m
        processed := s.processed ++ [⟨u, m, false⟩]
        pending := s.pending ++ q }
  /-- A rest is left for the buffer. -/
  | buffered (n : ℕ) (out : Buffer) (q : List (Functor ι)) (hq : ∀ f ∈ q, f.callsBack = true)
      (hup : s.state ≠ .kDisconnected) (hlt : n < m.length) (hfirst : s.outputBuffer.contents = [] ∨ n = 0)
      (hout : out.contents = s.outputBuffer.contents ++ m.drop n)
      (hshut : s.shut = true → n = 0 ∧ (s.isWriting = true ∨ s.outputBuffer.contents ≠ [])) :
      Sent s u m { s with
        wire := s.wire ++ m.take n
        processed := s.processed ++ [⟨u, m, false⟩]
        outputBuffer := out
        isWriting := true
        pending := s.pending ++ q }

theorem directWrite_spec (hw : w.possible s.shut m.length) :
    ((s.directWrite w).1.getD 0 ≤ m.length ∧ ((s.directWrite w).2 = true → (s.directWrite w).1 = none)) ∧
      (s.outputBuffer.contents = [] ∨ (s.directWrite w).1 = none) ∧
      (s.shut = true → m = [] ∨ (s.directWrite w).2 = true ∨
        (s.directWrite w).1 = none ∧ (s.isWriting = true ∨ s.outputBuffer.contents ≠ [])) := by
  have hnil : m.length = 0 → m = [] := List.length_eq_zero_iff.mp
  unfold directWrite
  split
  · rename_i hdirect
    simp only [Bool.and_eq_true, Bool.not_eq_true', decide_eq_true_eq, readableBytes_eq_zero_iff] at hdirect
    refine ⟨?_, .inl hdirect.2, fun hshut => ?_⟩
    · cases w with
      | bytes n => exact ⟨hw.1 n rfl, nofun⟩
      | wouldBlock | failed | broken => exact ⟨Nat.zero_le _, fun _ => rfl⟩
    · obtain rfl | hzero := hw.2 hshut
      · exact .inr (.inl rfl)
      · exact .inl (hnil hzero)
  · rename_i hdirect
    rw [Bool.and_eq_true, not_and_or, decide_eq_true_eq, readableBytes_eq_zero_iff] at hdirect
    refine ⟨⟨Nat.zero_le _, nofun⟩, .inr rfl, fun _ => .inr (.inr ⟨rfl, ?_⟩)⟩
    simpa using hdirect

theorem sendInLoop_sent (hw : w.possible s.shut m.length) : ∃ t, s.sendInLoop u m w = .ok t ∧ Sent s u m t := by
  unfold sendInLoop
  by_cases hdown : s.state = .kDisconnected
  · rw [if_pos hdown]
    exact ⟨_, rfl, .dropped⟩
  rw [if_neg hdown]
  obtain ⟨⟨hle, hbroken⟩, hfirst, hshut⟩ := directWrite_spec hw
  generalize s.directWrite w = r at *
  obtain ⟨wrote, fault⟩ := r
  dsimp only at hle hbroken hfirst hshut ⊢
  rw [if_pos hle]
  by_cases hwhole : wrote = some m.length
  · -- nothing is left, whether or not somebody is told
    subst hwhole
    have hok : fault = false := by
      rw [← Bool.not_eq_true]
      exact fun h => nomatch hbroken h
    have hnil : s.outputBuffer.contents = [] := hfirst.resolve_right nofun
    have hshut' : s.shut = true → m = [] := fun h => by
      obtain h | h | h := hshut h
      · exact h
      · rw [hok] at h
        cases h
      · cases h.1
    rw [if_neg (by simp)]
    refine ⟨_, rfl, ?_⟩
    subst hok
    split
    · have hsent := Sent.written (s := s) (u := u) [.writeComplete] (by simp [Functor.callsBack]) (.inl hnil) hshut'
      simpa [queueInLoop] using hsent
    · have hsent := Sent.written (s := s) (u := u) [] nofun (.inl hnil) hshut'
      simpa using hsent
  have hquiet : ¬ (wrote = some m.length ∧ s.hasWriteComplete = true) := fun h => hwhole h.1
  rw [if_neg hquiet]
  cases fault with
  | true =>
    obtain rfl := hbroken rfl
    refine ⟨_, rfl, ?_⟩
    have hsent : Sent s u m _ := .dropped
    simpa using hsent
  | false =>
    by_cases hlt : wrote.getD 0 < m.length
    · obtain ⟨out, q, hbuffer, hcontents, hq⟩ := buffer_ok
        { s with
          wire := s.wire ++ m.take (wrote.getD 0)
          processed := s.processed ++ [⟨u, m, false⟩] } (m.drop (wrote.getD 0))
      rw [if_pos (by simp [hlt]), hbuffer]
      refine ⟨_, rfl, .buffered (wrote.getD 0) out q hq hdown hlt ?_ hcontents fun h => ?_⟩
      · exact hfirst.imp_right fun h => by rw [h]; rfl
      · obtain rfl | h | h := hshut h
        · simp at hlt
        · cases h
        · exact ⟨by rw [h.1]; rfl, h.2⟩
    · -- an empty message that was not written
      have hwrote : wrote = none ∧ m = [] := by
        cases wrote with
        | some n =>
          dsimp only [Option.getD] at hle hlt
          exact absurd (congrArg some (by omega)) hwhole
        | none => exact ⟨rfl, List.length_eq_zero_iff.mp (by simpa using hlt)⟩
      obtain ⟨rfl, rfl⟩ := hwrote
      refine ⟨_, rfl, ?_⟩
      have hsent := Sent.written (s := s) (u := u) (m := []) [] nofun (.inr rfl) (fun _ => rfl)
      simpa using hsent

end Sending

section Writing

/-- What `handleWrite` does with the buffer. -/
inductive Flushed (s : TcpConnection ι) : TcpConnection ι → Prop
  | same : Flushed s s
  | part (n : ℕ) (out : Buffer) (hwriting : s.isWriting = true) (hshut : s.shut = false)
      (hout : out.contents = s.outputBuffer.contents.drop n) (hne : out.contents ≠ []) :
      Flushed s { s with wire := s.wire ++ s.outputBuffer.contents.take n, outputBuffer := out }
  /-- A socket that was to be shut is. -/
  | all (out : Buffer) (q : List (Functor ι)) (shut : Bool) (hq : ∀ f ∈ q, f.callsBack = true)
      (hwriting : s.isWriting = true) (hshut : s.shut = false) (hout : out.contents = []) :
      Flushed s { s with
        wire := s.wire ++ s.outputBuffer.contents
        outputBuffer := out
        isWriting := false
        pending := s.pending ++ q
        shut }

theorem handleWrite_flushed (hw : w.possible s.shut s.outputBuffer.readableBytes) :
    ∃ t, s.handleWrite w = .ok t ∧ Flushed s t := by
  unfold handleWrite
  split
  · rename_i n hwriting
    have hlen : n + 1 ≤ s.outputBuffer.readableBytes := hw.1 (n + 1) rfl
    have hshut : s.shut = false := by
      rw [← Bool.not_eq_true]
      intro h
      obtain h | h := hw.2 h
      · cases h
      · omega
    obtain ⟨out, hout, hrest, -⟩ := Buffer.retrieve_ok hlen
    rw [hout]
    dsimp only [lift]
    rw [ok_bind]
    by_cases hempty : out.readableBytes = 0
    · have hnil := readableBytes_eq_zero_iff.mp hempty
      have htake : s.outputBuffer.contents.take (n + 1) = s.outputBuffer.contents := by
        rw [List.take_of_length_le]
        exact List.drop_eq_nil_iff.mp (hrest.symm.trans hnil)
      rw [if_pos hempty, htake]
      refine ⟨_, rfl, ?_⟩
      split_ifs with hcallback hstate hstate
      · exact .all out [.writeComplete] true (by simp [Functor.callsBack]) hwriting hshut hnil
      · exact hshut ▸ .all out [.writeComplete] s.shut (by simp [Functor.callsBack]) hwriting hshut hnil
      · have hall := Flushed.all (s := s) out [] true nofun hwriting hshut hnil
        simpa [shutdownInLoop] using hall
      · have hall := Flushed.all (s := s) out [] s.shut nofun hwriting hshut hnil
        simpa using hall
    · rw [if_neg hempty]
      exact ⟨_, rfl, .part (n + 1) out hwriting hshut hrest (mt readableBytes_eq_zero_iff.mpr hempty)⟩
  · exact ⟨s, rfl, .same⟩

end Writing

end CppBase.Muduo.TcpConnection
