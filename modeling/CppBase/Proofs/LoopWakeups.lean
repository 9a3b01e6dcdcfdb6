import CppBase.Lib.Machine
import CppBase.Spec.EventLoop

/-! What threads hand to an event loop runs once, in the order it was handed over, and the
loop never goes to sleep on it: a write to the wakeup descriptor is there or on its way. -/

namespace CppBase.Muduo.EventLoop

open CppBase.Lib

variable {F ι : Type} {s t : EventLoop F ι}

/-- The functors that `doPendingFunctors` has taken and not yet called. -/
def Pc.remaining : Pc F → List F
  | .running fs => fs
  | _ => []

/-- `doPendingFunctors` is going to take what is pending before the next `poll`. -/
def Pc.willSwap : Pc F → Bool
  | .handling _ | .swapping => true
  | _ => false

def Pc.calling : Pc F → Bool
  | .swapping | .running _ => true
  | _ => false

/-- `poll` has something to return for, or a thread is about to write it. -/
def Waking (s : EventLoop F ι) : Prop :=
  0 < s.wakeupFd ∨ (∃ t, s.threads (some t) ≠ .none) ∨
    s.threads none = .queueInLoop ∧ s.callingPendingFunctors = true

structure Inv (s : EventLoop F ι) : Prop where
  calling : s.callingPendingFunctors = s.pc.calling
  self : s.threads none ≠ .none → s.pc.callsOut = true
  woken : s.pc.willSwap = false → s.pendingFunctors ≠ [] → s.Waking
  quitting : s.pc = .polling → s.quit = true → s.Waking
  order : s.executed ++ s.pc.remaining ++ s.pendingFunctors = s.queued

/-- The loop thread queues nothing before it calls `loop()`. -/
def NotEarly (s : EventLoop F ι) : Event F ι → Prop
  | .queueInLoop none _ => s.pc ≠ .outside
  | _ => True

theorem inv_init : Inv (init : EventLoop F ι) :=
  ⟨rfl, fun h => absurd rfl h, fun _ h => absurd rfl h, nofun, rfl⟩

theorem wakeup_pos (s : EventLoop F ι) : 0 < s.wakeup.wakeupFd := by
  unfold wakeup eventfdMax
  dsimp only
  split <;> omega

section Threads

variable [DecidableEq ι]

/-- A thread that is not done, and is not the loop thread in `quit`, is going to write. -/
theorem waking_of_call {u : Option ι} {c : Call} (hc : c ≠ .none)
    (h : u = none → c = .queueInLoop ∧ s.callingPendingFunctors = true) : (s.setThread u c).Waking := by
  cases u with
  | some u => exact .inr (.inl ⟨u, by simpa [setThread] using hc⟩)
  | none => exact .inr (.inr ⟨by simpa [setThread] using (h rfl).1, (h rfl).2⟩)

/-- A call by the loop thread leaves the others to write. -/
theorem Waking.setThread_none {c : Call} (h : s.Waking) (hs : s.threads none = .none) : (s.setThread none c).Waking := by
  obtain h | ⟨u, hu⟩ | ⟨h, -⟩ := h
  · exact .inl h
  · exact .inr (.inl ⟨u, by simpa [setThread] using hu⟩)
  · rw [hs] at h
    cases h

theorem Waking.finish {u : Option ι} (h : s.Waking) : (s.finish u).Waking := by
  have hpos := wakeup_pos (s.setThread u .none)
  cases u with
  | some u =>
    cases hc : s.threads (some u) with
    | none =>
      have hsame : s.finish (some u) = s := by
        simp only [EventLoop.finish, setThread, hc]
        rw [← hc, Function.update_eq_self]
      rwa [hsame]
    | queueInLoop =>
      rw [EventLoop.finish, hc]
      exact .inl hpos
    | quit =>
      rw [EventLoop.finish, hc]
      exact .inl hpos
  | none =>
    -- the loop thread writes unless others already do
    have hothers : 0 < s.wakeupFd ∨ (∃ t, s.threads (some t) ≠ .none) → (s.setThread none .none).Waking := by
      rintro (h | ⟨t, ht⟩)
      · exact .inl h
      · exact .inr (.inl ⟨t, by simpa [setThread] using ht⟩)
    cases hc : s.threads none with
    | none =>
      rw [EventLoop.finish, hc]
      exact h.setThread_none hc
    | queueInLoop =>
      simp only [EventLoop.finish, hc, isInLoopThread, Bool.not_true, Bool.false_or]
      split
      · exact .inl hpos
      · rename_i hcalling
        exact hothers (h.imp_right fun h => h.resolve_right fun h => hcalling h.2)
    | quit =>
      simp only [EventLoop.finish, hc, isInLoopThread, Bool.not_true, Bool.false_eq_true, if_false]
      refine hothers (h.imp_right fun h => h.resolve_right fun h => ?_)
      rw [hc] at h
      cases h.1

theorem finish_frame (s : EventLoop F ι) (u : Option ι) :
    (s.finish u).pc = s.pc ∧ (s.finish u).quit = s.quit ∧
      (s.finish u).callingPendingFunctors = s.callingPendingFunctors ∧
      (s.finish u).pendingFunctors = s.pendingFunctors ∧ (s.finish u).queued = s.queued ∧
      (s.finish u).executed = s.executed ∧ (s.finish u).threads = Function.update s.threads u .none := by
  unfold EventLoop.finish
  cases s.threads u <;> dsimp only <;> (try split) <;> exact ⟨rfl, rfl, rfl, rfl, rfl, rfl, rfl⟩

end Threads

section Steps

variable [DecidableEq ι]

theorem Inv.queueInLoop {u : Option ι} {cb : F} (h : s.Inv) (hcalls : u = none → s.pc.callsOut = true)
    (hearly : u = none → s.pc ≠ .outside) : (s.queueInLoop u cb).Inv := by
  have hwaking : s.pc.willSwap = false → (s.setThread u .queueInLoop).Waking := by
    intro hswap
    refine waking_of_call nofun fun hu => ⟨rfl, ?_⟩
    rw [h.calling]
    have h1 := hcalls hu
    have h2 := hearly hu
    cases hpc : s.pc <;> simp_all [Pc.callsOut, Pc.willSwap, Pc.calling]
  refine ⟨h.calling, fun hself => ?_, fun hswap _ => hwaking hswap, fun hpc _ => hwaking ?_, ?_⟩
  · cases u with
    | none => exact hcalls rfl
    | some u =>
      refine h.self ?_
      simpa [EventLoop.queueInLoop, setThread] using hself
  · rw [show s.pc = .polling from hpc]
    rfl
  · show s.executed ++ s.pc.remaining ++ (s.pendingFunctors ++ [cb]) = s.queued ++ [cb]
    rw [← h.order, List.append_assoc _ s.pendingFunctors]

theorem Inv.callQuit {u : Option ι} (h : s.Inv) (hidle : s.threads u = .none)
    (hcalls : u = none → s.pc.callsOut = true) : (s.callQuit u).Inv := by
  refine ⟨h.calling, fun hself => ?_, fun hswap hne => ?_, fun hpc _ => ?_, h.order⟩
  · cases u with
    | none => exact hcalls rfl
    | some u =>
      refine h.self ?_
      simpa [EventLoop.callQuit, setThread] using hself
  · cases u with
    | none => exact (h.woken hswap hne).setThread_none hidle
    | some u => exact waking_of_call (s := s) (u := some u) (c := .quit) nofun nofun
  · cases u with
    | none =>
      have hout := hcalls rfl
      rw [show s.pc = .polling from hpc] at hout
      cases hout
    | some u => exact waking_of_call (s := s) (u := some u) (c := .quit) nofun nofun

theorem Inv.finish {u : Option ι} (h : s.Inv) : (s.finish u).Inv := by
  obtain ⟨hpc, hquit, hcalling, hpending, hqueued, hexecuted, hthreads⟩ := finish_frame s u
  refine ⟨?_, fun hself => ?_, fun hswap hne => ?_, fun hpoll hq => ?_, ?_⟩
  · rw [hcalling, hpc, h.calling]
  · rw [hpc]
    refine h.self fun hnone => hself ?_
    rw [hthreads, Function.update_apply]
    split
    · rfl
    · exact hnone
  · rw [hpc] at hswap
    rw [hpending] at hne
    exact (h.woken hswap hne).finish
  · rw [hpc] at hpoll
    rw [hquit] at hq
    exact (h.quitting hpoll hq).finish
  · rw [hexecuted, hpc, hpending, hqueued, h.order]

omit [DecidableEq ι] in
theorem Inv.stepLoop (h : s.Inv) (hself : s.threads none = .none) : s.stepLoop.Inv := by
  obtain ⟨hcalling, -, hwoken, -, horder⟩ := id h
  unfold EventLoop.stepLoop
  split
  all_goals
    rename_i hpc
    simp only [hpc, Pc.calling, Pc.remaining] at hcalling hwoken horder
  · exact ⟨hcalling, fun hs => absurd hself hs, fun _ => hwoken rfl, nofun, horder⟩
  · cases hq : s.quit with
    | true => exact ⟨hcalling, fun hs => absurd hself hs, fun _ => hwoken rfl, nofun, horder⟩
    | false => exact ⟨hcalling, fun hs => absurd hself hs, fun _ => hwoken rfl, fun _ => nofun, horder⟩
  · exact h
  · exact ⟨hcalling, fun _ => rfl, nofun, nofun, horder⟩
  · exact ⟨hcalling, fun _ => rfl, nofun, nofun, horder⟩
  · exact ⟨rfl, fun hs => absurd hself hs, nofun, nofun, horder⟩
  · refine ⟨hcalling, fun _ => rfl, fun _ hne => absurd rfl hne, nofun, ?_⟩
    show s.executed ++ s.pendingFunctors ++ [] = s.queued
    rw [List.append_nil, ← horder, List.append_nil]
  · refine ⟨hcalling, fun _ => rfl, fun _ => hwoken rfl, nofun, ?_⟩
    rw [← horder]
    simp [Pc.remaining]
  · refine ⟨rfl, fun hs => absurd hself hs, fun _ hne => ?_, nofun, horder⟩
    obtain h | h | ⟨h, -⟩ := hwoken rfl hne
    · exact .inl h
    · exact .inr (.inl h)
    · rw [hself] at h
      cases h

theorem Inv.next {e : Event F ι} (h : s.Inv) (hok : s.ok e) (hearly : s.NotEarly e) : (s.next e).Inv := by
  cases e with
  | queueInLoop u cb =>
    refine h.queueInLoop hok.2 ?_
    rintro rfl
    exact hearly
  | quit u => exact h.callQuit hok.1 hok.2
  | finish u => exact h.finish
  | loop => exact h.stepLoop hok.2
  | poll active =>
    obtain ⟨hpc, -⟩ := hok
    obtain ⟨hcalling, hself, -, -, horder⟩ := h
    rw [hpc] at hcalling horder
    exact ⟨hcalling, fun _ => rfl, nofun, nofun, horder⟩

theorem inv_of_run {es : List (Event F ι)} (h : Run next (fun s e => s.ok e ∧ s.NotEarly e) init es s) : s.Inv :=
  h.invariant (fun _ _ hok hinv => hinv.next hok.1 hok.2) inv_init

end Steps

section Leaving

variable [DecidableEq ι]

/-- The loop has been told to quit by one of the events so far, and has left only then. -/
structure Told (past : List (Event F ι)) (s : EventLoop F ι) : Prop where
  asked : s.quit = true → ∃ u, .quit u ∈ past
  left : s.pc = .outside → .loop ∈ past → s.quit = true

omit [DecidableEq ι] in
theorem stepLoop_outside (h : s.stepLoop.pc = .outside) : s.stepLoop.quit = true := by
  unfold EventLoop.stepLoop at h ⊢
  split <;> simp_all

omit [DecidableEq ι] in
theorem stepLoop_quit (h : s.stepLoop.quit = true) : s.quit = true := by
  unfold EventLoop.stepLoop at h
  split at h <;> first | exact h | cases h

theorem Told.next {past : List (Event F ι)} {e : Event F ι} (h : Told past s) : Told (past ++ [e]) (s.next e) := by
  have hpast : (∃ u, Event.quit u ∈ past) → ∃ u, Event.quit u ∈ past ++ [e] := fun ⟨u, hu⟩ =>
    ⟨u, List.mem_append_left _ hu⟩
  cases e with
  | queueInLoop u cb => exact ⟨fun hq => hpast (h.asked hq), fun hpc hloop => h.left hpc (by simpa using hloop)⟩
  | quit u => exact ⟨fun _ => ⟨u, by simp⟩, fun _ _ => rfl⟩
  | finish u =>
    obtain ⟨hpc, hquit, -⟩ := finish_frame s u
    refine ⟨fun hq => hpast (h.asked (hquit ▸ hq)), fun hout hloop => ?_⟩
    exact hquit.trans (h.left (hpc ▸ hout) (by simpa using hloop))
  | loop => exact ⟨fun hq => hpast (h.asked (stepLoop_quit hq)), fun hout _ => stepLoop_outside hout⟩
  | poll active => exact ⟨fun hq => hpast (h.asked hq), nofun⟩

end Leaving

section Progress

variable [DecidableEq ι]

end Progress

end CppBase.Muduo.EventLoop
