import CppBase.Lib.LastWriter
import CppBase.Lib.Machine
import CppBase.Sanity.Accepted
import CppBase.Sanity.Sample

/-! External commands on a new task converge. For them the store is a
last-writer-wins register of commands ordered by `optVer`, whatever ownership
scripts run in between. -/

namespace CppBase.TaskStore

open CppBase.Lib

/-- A start or an external stop of command type 0 for the task, with a natural number as its version. -/
def Command.ExternalOn (key name allKey : String) : Command → Prop
  | .startTask a => a.iKey = key ∧ a.iName = name ∧ a.iAllTaskKey = allKey ∧
      tonumber (some a.iCmdType) = some 0 ∧ ∃ n : ℕ, tonumber (some a.iOptVer) = some n
  | .stopTask a => a.iKey = key ∧ a.iName = name ∧ a.iAllTaskKey = allKey ∧
      tonumber (some a.iCmdType) = some 0 ∧ tonumber (some a.iInternal) = some 0 ∧ ∃ n : ℕ, tonumber (some a.iOptVer) = some n
  | .preStopTask _ => False

def Command.version (c : Command) : ℚ := (tonumber (some c.optVer)).getD 0

/-- Such commands, any ownership scripts, and the key does not expire. -/
def externalOk (key name allKey : String) (_ : Store) : Event → Prop
  | .call (.command c) => c.ExternalOn key name allKey
  | .call (.ownership _) => True
  | .expire k => k ≠ key

def Event.command? : Event → Option Command
  | .call (.command c) => some c
  | _ => none

def commandsOf (es : List Event) : List Command := es.filterMap Event.command?

/-- What commands decide about a task: the versioned fields of its hash, if there
is one, and whether its name is in the all-task set. -/
structure Outcome where
  fields : Option Versioned
  listed : Bool
  deriving DecidableEq

def Store.outcome (key name allKey : String) (s : Store) : Outcome :=
  ⟨(s.task key).map (·.versioned), decide (name ∈ s.names allKey)⟩

def Command.outcome : Command → Outcome
  | .startTask a => ⟨some (a.write {}).versioned, true⟩
  | .stopTask a => ⟨some (a.writeVersioned {}).versioned, false⟩
  | .preStopTask a => ⟨some (a.create {}).versioned, false⟩

variable {key name allKey : String} {c d : Command} {s : Store}

namespace Command.ExternalOn

theorem key_eq (hc : c.ExternalOn key name allKey) : c.key = key := by
  cases c with
  | startTask a => exact hc.1
  | stopTask a => exact hc.1
  | preStopTask a => exact hc.elim

theorem tonumber_optVer (hc : c.ExternalOn key name allKey) : tonumber (some c.optVer) = some c.version := by
  cases c with
  | startTask a => obtain ⟨-, -, -, -, n, hn⟩ := hc; simp [optVer, version, hn]
  | stopTask a => obtain ⟨-, -, -, -, -, n, hn⟩ := hc; simp [optVer, version, hn]
  | preStopTask a => exact hc.elim

theorem written_none (hc : c.ExternalOn key name allKey) :
    ∃ h, c.written none = some h ∧ some h.versioned = c.outcome.fields := by
  cases c with
  | startTask a => exact ⟨(a.write {}).unowned, by simp [written, StartTask.written, hc.2.2.2.1], rfl⟩
  | stopTask a => exact ⟨(a.writeVersioned {}).unowned, by simp [written, StopTask.written, hc.2.2.2.1], rfl⟩
  | preStopTask a => exact hc.elim

/-- On an existing hash its version decides, and it writes the same fields. -/
theorem written_some (hc : c.ExternalOn key name allKey) (h₀ : TaskHash) :
    if versionOk h₀.optVer c.optVer then
      ∃ h, c.written (some h₀) = some h ∧ some h.versioned = c.outcome.fields
    else c.written (some h₀) = none := by
  cases c with
  | startTask a =>
    simp only [written, StartTask.written, optVer, hc.2.2.2.1]
    cases versionOk h₀.optVer a.iOptVer with
    | false => simp
    | true => exact ⟨a.write h₀, by simp [startAllowed], rfl⟩
  | stopTask a =>
    simp only [written, StopTask.written, optVer, hc.2.2.2.1, hc.2.2.2.2.1, if_true]
    cases versionOk h₀.optVer a.iOptVer with
    | false => simp
    | true => exact ⟨a.writeVersioned h₀, by simp, rfl⟩
  | preStopTask a => exact hc.elim

theorem commit_outcome (hc : c.ExternalOn key name allKey) {h : TaskHash}
    (hh : some h.versioned = c.outcome.fields) : (c.commit h s).outcome key name allKey = c.outcome := by
  have hfields : ((c.commit h s).task key).map (·.versioned) = c.outcome.fields := by
    rw [commit_task, hc.key_eq, Function.update_self, Option.map_some, settle_versioned, hh]
  have hlisted : decide (name ∈ (c.commit h s).names allKey) = c.outcome.listed := by
    cases c with
    | startTask a =>
      obtain ⟨-, rfl, rfl, -⟩ := hc
      simp [commit, StartTask.commit, outcome]
    | stopTask a =>
      obtain ⟨-, rfl, rfl, -⟩ := hc
      simp [commit, StopTask.commit, outcome]
    | preStopTask a => exact hc.elim
  simp only [Store.outcome, hfields, hlisted]

theorem outcome_optVer (hd : d.ExternalOn key name allKey) {h : TaskHash}
    (hh : some h.versioned = d.outcome.fields) : h.optVer = some d.optVer := by
  cases d with
  | startTask a => exact congrArg Versioned.optVer (Option.some.inj hh)
  | stopTask a => exact congrArg Versioned.optVer (Option.some.inj hh)
  | preStopTask a => exact hd.elim

end Command.ExternalOn

/-- The register's view of an event: only commands write to it. -/
def follow (o : Option Command) (e : Event) : Option Command :=
  e.command?.elim o (latest Command.version o)

/-- The store shows what the register holds; `listed₀` is the membership before any command. -/
def Tracks (key name allKey : String) (listed₀ : Bool) (o : Option Command) (s : Store) : Prop :=
  s.outcome key name allKey = o.elim ⟨none, listed₀⟩ Command.outcome ∧
    ∀ d, o = some d → d.ExternalOn key name allKey

variable {listed₀ : Bool} {o : Option Command}

theorem tracks_command (hc : c.ExternalOn key name allKey) (h : Tracks key name allKey listed₀ o s) :
    Tracks key name allKey listed₀ (latest Command.version o c) ((Call.command c).run s) := by
  obtain ⟨hout, hext⟩ := h
  rw [c.run_eq, hc.key_eq]
  have accepted : ∀ {h}, some h.versioned = c.outcome.fields →
      Tracks key name allKey listed₀ (some c) (c.commit h s) := by
    intro h hh
    exact ⟨hc.commit_outcome hh, by rintro d ⟨⟩; exact hc⟩
  cases o with
  | none =>
    have hnone : s.task key = none := Option.map_eq_none_iff.mp (congrArg Outcome.fields hout)
    obtain ⟨h, hw, hh⟩ := hc.written_none
    rw [hnone, hw]
    exact accepted hh
  | some d =>
    have hfields : (s.task key).map (·.versioned) = d.outcome.fields := congrArg Outcome.fields hout
    obtain ⟨h₀, hs⟩ : ∃ h₀, s.task key = some h₀ := by
      cases hs : s.task key with
      | none => rw [hs] at hfields; cases d <;> cases hfields
      | some h₀ => exact ⟨h₀, rfl⟩
    rw [hs, Option.map_some] at hfields
    have hver := (hext d rfl).outcome_optVer hfields
    have hok : versionOk h₀.optVer c.optVer = decide (d.version < c.version) := by
      rw [hver]
      exact versionOk_some (hext d rfl).tonumber_optVer hc.tonumber_optVer
    have hw := hc.written_some h₀
    rw [hok] at hw
    rw [hs, latest]
    by_cases hlt : d.version < c.version
    · simp only [hlt, decide_true, if_true] at hw
      obtain ⟨h, hw, hh⟩ := hw
      rw [hw, if_pos hlt]
      exact accepted hh
    · simp only [hlt, decide_false, Bool.false_eq_true, if_false] at hw
      rw [hw, if_neg hlt]
      exact ⟨hout, hext⟩

theorem outcome_ownership (c : Ownership) (s : Store) :
    ((Call.ownership c).run s).outcome key name allKey = s.outcome key name allKey := by
  unfold Store.outcome
  rw [c.names_run]
  rcases c.task_cases s key with hr | ⟨h, h', hs, hr, hm⟩
  · rw [hr]
  · rw [hr, hs, Option.map_some, Option.map_some, hm.versioned]

theorem tracks_next (e : Event) (hok : externalOk key name allKey s e) (h : Tracks key name allKey listed₀ o s) :
    Tracks key name allKey listed₀ (follow o e) (s.next e) := by
  cases e with
  | call c =>
    cases c with
    | command c => exact tracks_command hok h
    | ownership c => exact ⟨(outcome_ownership c s).trans h.1, h.2⟩
  | expire k =>
    refine ⟨Eq.trans ?_ h.1, h.2⟩
    simp only [Store.next, Store.expireKey, Store.outcome, Function.update_of_ne (Ne.symm hok)]
    rfl

theorem foldl_follow (es : List Event) (o : Option Command) :
    es.foldl follow o = (commandsOf es).foldl (latest Command.version) o := by
  rw [commandsOf, List.foldl_filterMap]
  congr 1
  funext o e
  unfold follow
  cases e.command? <;> rfl

/-- The outcome of a run is that of the register after the commands of the run. -/
theorem outcome_run {es : List Event} {t : Store} (hnew : s.task key = none)
    (hrun : Run Store.next (externalOk key name allKey) s es t) :
    t.outcome key name allKey =
      ((commandsOf es).foldl (latest Command.version) none).elim ⟨none, decide (name ∈ s.names allKey)⟩
        Command.outcome := by
  have h₀ : Tracks key name allKey (decide (name ∈ s.names allKey)) none s := by
    refine ⟨?_, by simp⟩
    simp only [Store.outcome, hnew, Option.map_none, Option.elim_none]
  have h := hrun.simulates (fun o s e hok h => tracks_next e hok h) h₀
  rw [foldl_follow] at h
  exact h.1

/-- Two runs of the same external commands on a new task, in any two orders and with
any ownership scripts in between, end with the same outcome: that of the command
with the largest `optVer`. -/
theorem external_commands_converge {es₁ es₂ : List Event} {t₁ t₂ : Store} (hnew : s.task key = none)
    (hrun₁ : Run Store.next (externalOk key name allKey) s es₁ t₁)
    (hrun₂ : Run Store.next (externalOk key name allKey) s es₂ t₂)
    (hperm : (commandsOf es₁).Perm (commandsOf es₂))
    (hinj : ∀ c ∈ commandsOf es₁, ∀ d ∈ commandsOf es₁, c.version = d.version → c = d) :
    t₁.outcome key name allKey = t₂.outcome key name allKey ∧
      ∀ c ∈ commandsOf es₁, (∀ d ∈ commandsOf es₁, d.version ≤ c.version) →
        t₁.outcome key name allKey = c.outcome := by
  rw [outcome_run hnew hrun₁, outcome_run hnew hrun₂]
  refine ⟨by rw [foldl_latest_perm hinj hperm], ?_⟩
  intro c hc hmax
  rw [foldl_latest_eq hinj hc hmax, Option.elim_some]

/-- A start and a newer stop: the stop wins in both orders. -/
theorem external_stop_wins :
    ((Sample.stopCall "A" "x" 2).run ((Sample.startCall "A" "x" 1).run Store.empty)).outcome "task:x" "x" "all" =
        (Command.stopTask (Sample.stop "A" "x" 2)).outcome ∧
      ((Sample.startCall "A" "x" 1).run ((Sample.loadAllCall "A").run
          ((Sample.stopCall "A" "x" 2).run Store.empty))).outcome "task:x" "x" "all" =
        (Command.stopTask (Sample.stop "A" "x" 2)).outcome := by
  have hstart : (Command.startTask (Sample.start "A" "x" 1)).ExternalOn "task:x" "x" "all" :=
    ⟨rfl, rfl, rfl, rfl, 1, rfl⟩
  have hstop : (Command.stopTask (Sample.stop "A" "x" 2)).ExternalOn "task:x" "x" "all" :=
    ⟨rfl, rfl, rfl, rfl, rfl, 2, rfl⟩
  have hrun₁ : Run Store.next (externalOk "task:x" "x" "all") Store.empty
      [.call (Sample.startCall "A" "x" 1), .call (Sample.stopCall "A" "x" 2)]
      ((Sample.stopCall "A" "x" 2).run ((Sample.startCall "A" "x" 1).run Store.empty)) :=
    .cons hstart (.cons hstop (.nil _))
  have hrun₂ : Run Store.next (externalOk "task:x" "x" "all") Store.empty
      [.call (Sample.stopCall "A" "x" 2), .call (Sample.loadAllCall "A"), .call (Sample.startCall "A" "x" 1)]
      ((Sample.startCall "A" "x" 1).run ((Sample.loadAllCall "A").run
        ((Sample.stopCall "A" "x" 2).run Store.empty))) :=
    .cons hstop (.cons trivial (.cons hstart (.nil _)))
  have hcmds : commandsOf [.call (Sample.startCall "A" "x" 1), .call (Sample.stopCall "A" "x" 2)] =
      [.startTask (Sample.start "A" "x" 1), .stopTask (Sample.stop "A" "x" 2)] := rfl
  have h := external_commands_converge rfl hrun₁ hrun₂ (.swap _ _ _) (by
    rw [hcmds]
    simp [Command.version, Command.optVer, Sample.start, Sample.stop])
  have hmax := h.2 (.stopTask (Sample.stop "A" "x" 2)) (by rw [hcmds]; simp) (by
    rw [hcmds]
    simp [Command.version, Command.optVer, Sample.start, Sample.stop])
  exact ⟨hmax, h.1.symm.trans hmax⟩

end CppBase.TaskStore
