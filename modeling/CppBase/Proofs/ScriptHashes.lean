import CppBase.Sanity.RedisHandle

/-! The hashes of `LoadScriptMgr` belong to the connection that is open. They are
cleared by `close` only, but no connection is opened without a `close` before it
or before any hash has been stored. -/

namespace CppBase.RedisTool.RedisManager

open CppBase.Lib

/-- Each hash stored while a connection is open came with a `SCRIPT LOAD` reply on
it, and each hash sent with an `EVALSHA` came on the connection it was sent on. -/
structure HashesCurrent (s : RedisManager) : Prop where
  stored : ∀ c, s.master.context = some c → ∀ it ∈ s.scripts.toList, it.sha1 ≠ "" →
    s.Delivered c.id it.file it.sha1
  sent : ∀ e ∈ s.evals, e.sha1 ≠ "" → s.Delivered e.context e.filePath e.sha1

theorem hashes_current {readFile : String → Option String} {paths : List String} {scripts : LoadScriptMgr}
    (h : LoadScriptMgr.init readFile paths = some scripts) (slots : ℕ → Option RedisRequest)
    (masterAddr : RedisAddr) {es : List Event} {s : RedisManager}
    (hrun : runAll handle (init slots scripts masterAddr) es = .ok s) : s.HashesCurrent := by
  have hinv := inv_of_run h hrun
  refine ⟨?_, hinv.evals⟩
  intro c hc it hit hne
  exact hinv.hashes c hc it.file it.sha1 (List.mem_map.mpr ⟨it, hit, rfl⟩) hne

def luaScript : LoadScriptMgr := ⟨[⟨"a.lua", "return 1", "", 0⟩], by simp⟩

/-- The script is loaded and run on the first master, the connection is lost, and
after the failover an `EVALSHA` on the second goes out with no hash. -/
def failover : List Event :=
  [.mainLoop false, .connect true 100 100000, .reply (some ⟨.status, "OK"⟩) 100, .timerMs 100010,
    .reply (some ⟨.string, "e0e1"⟩) 100, .send (some ⟨1, "calc", .evalScript "a.lua"⟩), .timerMs 100020,
    .disconnect none 101, .timer 140 (some ⟨"10.0.0.2", 6379⟩) false, .connect true 140 140000,
    .reply (some ⟨.status, "OK"⟩) 140, .send (some ⟨2, "calc", .evalScript "a.lua"⟩), .timerMs 140010]

theorem hashes_current_failover :
    ∃ s, runAll handle (init (fun _ => none) luaScript ⟨"10.0.0.1", 6379⟩) failover = .ok s ∧
    s.evals = [⟨0, "a.lua", "e0e1"⟩, ⟨1, "a.lua", ""⟩] ∧ s.HashesCurrent := by
  have hscripts : LoadScriptMgr.init (fun _ => some "return 1") ["a.lua"] = some luaScript := rfl
  have hevals : (runAll handle (init (fun _ => none) luaScript ⟨"10.0.0.1", 6379⟩) failover).map RedisManager.evals =
      .ok [⟨0, "a.lua", "e0e1"⟩, ⟨1, "a.lua", ""⟩] := by decide +kernel
  cases hrun : runAll handle (init (fun _ => none) luaScript ⟨"10.0.0.1", 6379⟩) failover with
  | error f =>
    rw [hrun] at hevals
    cases hevals
  | ok s =>
    rw [hrun] at hevals
    exact ⟨s, rfl, Except.ok.inj hevals, hashes_current hscripts _ _ hrun⟩

end CppBase.RedisTool.RedisManager
