import CppBase.Sanity.RedisHandle

/-! The null replies hiredis makes for the commands of a dying connection are
dereferenced where they answer an `AUTH` or a `PING`, and nowhere else. -/

namespace CppBase.RedisTool.RedisManager

open CppBase.Lib

/-- No callback of the run reads a field of a null reply, and in every state on the
way the connection state fits the context. -/
structure NullSafe (s₀ : RedisManager) (es : List Event) : Prop where
  reply : runAll handle s₀ es ≠ .error .nullReply
  working : ∀ pre post s, es = pre ++ post → runAll handle s₀ pre = .ok s → s.master.stat = .working →
    ∃ c, s.master.context = some c ∧ s.Authenticated c.id
  nullStat : ∀ pre post s, es = pre ++ post → runAll handle s₀ pre = .ok s → s.master.context = none →
    s.master.stat = .nullStat

/-- At no event of the run does an `AUTH` or a `PING` go unanswered. -/
def InternalAnswered (s₀ : RedisManager) (es : List Event) : Prop :=
  Along handle (fun s e => s.losesInternal e = false) s₀ es

variable {readFile : String → Option String} {paths : List String} {scripts : LoadScriptMgr}

theorem null_safe_iff (h : LoadScriptMgr.init readFile paths = some scripts) (slots : ℕ → Option RedisRequest)
    (masterAddr : RedisAddr) (es : List Event) :
    (init slots scripts masterAddr).NullSafe es ↔ (init slots scripts masterAddr).InternalAnswered es := by
  constructor
  · rintro hsafe pre e post s rfl hpre
    by_contra hlost
    have herr := ((inv_of_run h hpre).settles_handle e).error (by simpa using hlost)
    apply hsafe.reply
    rw [runAll_append hpre, runAll_cons_error herr]
  · intro hans
    refine ⟨?_, ?_, ?_⟩
    · obtain ⟨t, ht, -⟩ := Along.runAll_ok hans (fun s e hinv hok => (hinv.settles_handle e).ok hok) (inv_init h)
      rw [ht]
      exact nofun
    · rintro pre post s - hpre hw
      exact (inv_of_run h hpre).working hw
    · rintro pre post s - hpre hctx
      exact (inv_of_run h hpre).nullStat hctx

def okReply : Option RedisReply := some ⟨.status, "OK"⟩

def pinged : List Event :=
  [.mainLoop false, .connect true 100 100000, .reply okReply 100, .checkPing 106]

/-- The server answers the `PING` before the connection is closed. -/
theorem null_safe_answered :
    let s₀ := init (fun _ => none) default ⟨"10.0.0.1", 6379⟩
    let es := pinged ++ [.reply okReply 107, .close 120]
    (s₀.NullSafe es ↔ s₀.InternalAnswered es) ∧ ∃ t, runAll handle s₀ es = .ok t :=
  ⟨@null_safe_iff (fun _ => none) [] default rfl _ _ _, _, rfl⟩

/-- The server goes silent: the ping timeout closes the connection, and the null
reply to the `PING` is dereferenced. -/
theorem ping_timeout_dereferences_null :
    let s₀ := init (fun _ => none) default ⟨"10.0.0.1", 6379⟩
    runAll handle s₀ (pinged ++ [.checkPing 116]) = .error .nullReply ∧
      ¬ s₀.NullSafe (pinged ++ [.checkPing 116]) := by
  intro s₀
  have hfault : runAll handle s₀ (pinged ++ [.checkPing 116]) = .error .nullReply := rfl
  exact ⟨hfault, fun hsafe => hsafe.reply hfault⟩

end CppBase.RedisTool.RedisManager
