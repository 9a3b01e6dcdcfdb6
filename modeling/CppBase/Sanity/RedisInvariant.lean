import CppBase.Sanity.RedisEffects

/-! What holds of the connection in every state the Redis thread reaches, and at
which events it dereferences a null reply instead of reaching a state. -/

namespace CppBase.RedisTool.RedisManager

open CppBase.Lib CppBase.Ring

variable {s t : RedisManager} {c : Context}

/-- A success reply to the manager's own `AUTH` was received on the connection `id`. -/
def Authenticated (s : RedisManager) (id : ℕ) : Prop :=
  ∃ cb ∈ s.callbacks, cb.context = id ∧ cb.request.cls = .base ∧ cb.request.type = redisUriAuth ∧
    ∃ r, cb.reply = some r ∧ r.type ≠ .error

/-- A string reply to `SCRIPT LOAD` of the file brought `sha` on the connection `id`. -/
def Delivered (s : RedisManager) (id : ℕ) (filePath sha : String) : Prop :=
  ∃ cb ∈ s.callbacks, cb.context = id ∧ cb.request.cls = .loadScript filePath ∧
    ∃ r, cb.reply = some r ∧ r.type = .string ∧ r.str = sha

def NoHashes (s : RedisManager) : Prop := ∀ f sha, (f, sha) ∈ s.sha1s → sha = ""

structure Inv (s : RedisManager) : Prop where
  nullStat : s.master.context = none → s.master.stat = .nullStat
  working : s.master.stat = .working → ∃ c, s.master.context = some c ∧ s.Authenticated c.id
  unconnected : ∀ c, s.master.context = some c → c.connected = false → c.pending = [] ∧ s.master.stat = .waitConn
  pending : ∀ c, s.master.context = some c → ∀ r ∈ c.pending, r.cls ≠ .base → s.Authenticated c.id
  hashes : ∀ c, s.master.context = some c → ∀ f sha, (f, sha) ∈ s.sha1s → sha ≠ "" → s.Delivered c.id f sha
  evals : ∀ e ∈ s.evals, e.sha1 ≠ "" → s.Delivered e.context e.filePath e.sha1
  starting : s.dispatching = false → s.master.context = none ∧ s.NoHashes

theorem Authenticated.mono {id : ℕ} (h : s.Authenticated id) (hcb : s.callbacks ⊆ t.callbacks) :
    t.Authenticated id := by
  obtain ⟨cb, hmem, hrest⟩ := h
  exact ⟨cb, hcb hmem, hrest⟩

theorem Delivered.mono {id : ℕ} {f sha : String} (h : s.Delivered id f sha) (hcb : s.callbacks ⊆ t.callbacks) :
    t.Delivered id f sha := by
  obtain ⟨cb, hmem, hrest⟩ := h
  exact ⟨cb, hcb hmem, hrest⟩

section Keeping

/-- A step that neither the connection nor the hashes notice. -/
theorem Inv.congr (h : s.Inv) (hctx : t.master.context = s.master.context) (hstat : t.master.stat = s.master.stat)
    (hcb : t.callbacks = s.callbacks) (hsha : t.sha1s = s.sha1s) (hev : t.evals = s.evals)
    (hdis : t.dispatching = s.dispatching) : t.Inv := by
  have hsub : s.callbacks ⊆ t.callbacks := by rw [hcb]; exact fun _ h => h
  refine ⟨?_, ?_, ?_, ?_, ?_, ?_, ?_⟩
  · rw [hctx, hstat]
    exact h.nullStat
  · rw [hctx, hstat]
    intro hw
    obtain ⟨c, hc, ha⟩ := h.working hw
    exact ⟨c, hc, ha.mono hsub⟩
  · rw [hctx, hstat]
    exact h.unconnected
  · rw [hctx]
    exact fun c hc r hr hb => (h.pending c hc r hr hb).mono hsub
  · rw [hctx, hsha]
    exact fun c hc f sha hf hne => (h.hashes c hc f sha hf hne).mono hsub
  · rw [hev]
    exact fun e he hne => (h.evals e he hne).mono hsub
  · rw [hdis, hctx, NoHashes, hsha]
    exact h.starting

theorem Inv.of_besidesQueue (h : s.Inv) (heq : t.besidesQueue = s.besidesQueue) : t.Inv := by
  simp only [besidesQueue, Prod.mk.injEq] at heq
  obtain ⟨hm, -, -, hdis, -, -, -, hcb, hev, hsha⟩ := heq
  exact h.congr (by rw [hm]) (by rw [hm]) hcb hsha hev hdis

/-- The connection goes, and with it at least the claim that it works. -/
theorem Inv.disconnected (h : s.Inv) (hctx : t.master.context = none) (hstat : t.master.stat = .nullStat)
    (hcb : s.callbacks ⊆ t.callbacks) (hsha : t.sha1s = s.sha1s ∨ t.NoHashes) (hev : t.evals = s.evals)
    (hdis : t.dispatching = s.dispatching) : t.Inv := by
  have hnone : ∀ c, t.master.context ≠ some c := by simp [hctx]
  refine ⟨fun _ => hstat, ?_, fun c hc => absurd hc (hnone c), fun c hc => absurd hc (hnone c),
    fun c hc => absurd hc (hnone c), ?_, ?_⟩
  · intro hw
    rw [hstat] at hw
    cases hw
  · rw [hev]
    exact fun e he hne => (h.evals e he hne).mono hcb
  · intro hd
    rw [hdis] at hd
    refine ⟨hctx, ?_⟩
    rcases hsha with heq | hno
    · rw [NoHashes, heq]
      exact (h.starting hd).2
    · exact hno

end Keeping

section Closing

theorem noHashes_clearSha1 (m : LoadScriptMgr) : ∀ it ∈ m.clearSha1.toList, it.sha1 = "" := by
  intro it hit
  simp only [LoadScriptMgr.clearSha1, Keyed.toList_map, List.mem_map] at hit
  obtain ⟨it', -, rfl⟩ := hit
  rfl

theorem noHashes_closed (s : RedisManager) : s.closed.NoHashes := by
  intro f sha hf
  simp only [sha1s, closed, List.mem_map, Prod.mk.injEq] at hf
  obtain ⟨it, hit, -, rfl⟩ := hf
  exact noHashes_clearSha1 s.scripts it hit

theorem Inv.closed (h : s.Inv) : s.closed.Inv :=
  h.disconnected rfl rfl (List.subset_append_left _ _) (Or.inr s.noHashes_closed) rfl rfl

/-- A connection is opened while no hash is stored, and the event loop runs if that succeeds. -/
theorem Inv.connect (h : s.Inv) (hctx : s.master.context = none) (hno : s.NoHashes) (addr : RedisAddr) (err : Bool)
    {d : Bool} (hd : (s.connect addr err).1 = true → d = true) :
    { (s.connect addr err).2 with dispatching := d }.Inv := by
  have hstat := h.nullStat hctx
  unfold RedisManager.connect at hd ⊢
  split at hd <;> rename_i hempty
  · rw [if_pos hempty]
    refine ⟨fun _ => hstat, ?_, ?_, ?_, ?_, h.evals, fun _ => ⟨hctx, hno⟩⟩ <;> simp [hctx, hstat]
  · rw [if_neg hempty]
    split at hd <;> rename_i herr
    · rw [if_pos herr]
      refine ⟨fun _ => hstat, ?_, ?_, ?_, ?_, h.evals, fun _ => ⟨rfl, hno⟩⟩ <;> simp [hstat]
    · rw [if_neg herr]
      refine ⟨by simp, by simp, ?_, ?_, ?_, h.evals, by simp [hd rfl]⟩
      · rintro c ⟨⟩ _
        exact ⟨rfl, rfl⟩
      · rintro c ⟨⟩ r hr
        cases hr
      · intro c _ f sha hf hne
        exact absurd (hno f sha hf) hne

theorem stat_connect (h : s.master.stat ≠ .working) (addr : RedisAddr) (err : Bool) :
    (s.connect addr err).2.master.stat ≠ .working := by
  unfold RedisManager.connect
  split
  · exact h
  · split
    · exact h
    · simp

@[simp] theorem dispatching_connect (s : RedisManager) (addr : RedisAddr) (err : Bool) :
    (s.connect addr err).2.dispatching = s.dispatching := by
  unfold RedisManager.connect
  split
  · rfl
  · split <;> rfl

end Closing

section Commands

/-- One more command is sent on the connection `c`; a caller's only while it works. -/
theorem Inv.commanded (h : s.Inv) (hc : s.master.context = some c) {c' : Context} {r : RedisRequest}
    (hctx : t.master.context = some c') (hid : c'.id = c.id) (hconn : c'.connected = true)
    (hpend : c'.pending = c.pending ∨ c'.pending = c.pending ++ [r]) (hr : r.cls = .base ∨ s.Authenticated c.id)
    (hstat : t.master.stat = .waitAuth ∨ t.master.stat = s.master.stat) (hcb : t.callbacks = s.callbacks)
    (hsha : t.sha1s = s.sha1s) (hev : ∀ e ∈ t.evals, e ∈ s.evals ∨ e.context = c.id ∧ (e.filePath, e.sha1) ∈ s.sha1s
      ∨ e.sha1 = "") (hdis : t.dispatching = s.dispatching) : t.Inv := by
  have hsub : s.callbacks ⊆ t.callbacks := by rw [hcb]; exact fun _ h => h
  have hdis' : t.dispatching ≠ false := by
    intro hd
    rw [hdis] at hd
    rw [(h.starting hd).1] at hc
    cases hc
  refine ⟨by simp [hctx], ?_, ?_, ?_, ?_, ?_, fun hd => absurd hd hdis'⟩
  · intro hw
    rcases hstat with hstat | hstat
    · rw [hstat] at hw
      cases hw
    · obtain ⟨d, hd, ha⟩ := h.working (hstat ▸ hw)
      obtain rfl : d = c := Option.some.inj (hd.symm.trans hc)
      exact ⟨c', hctx, hid ▸ ha.mono hsub⟩
  · rintro d hd hfalse
    obtain rfl : c' = d := Option.some.inj (hctx.symm.trans hd)
    rw [hconn] at hfalse
    cases hfalse
  · rintro d hd q hq hb
    obtain rfl : c' = d := Option.some.inj (hctx.symm.trans hd)
    rw [hid]
    have hmem : q ∈ c.pending ∨ q = r := by
      rcases hpend with heq | heq <;> rw [heq] at hq
      · exact Or.inl hq
      · simpa using hq
    rcases hmem with hmem | rfl
    · exact (h.pending c hc q hmem hb).mono hsub
    · exact (hr.resolve_left hb).mono hsub
  · rintro d hd f sha hf hne
    obtain rfl : c' = d := Option.some.inj (hctx.symm.trans hd)
    rw [hsha] at hf
    rw [hid]
    exact (h.hashes c hc f sha hf hne).mono hsub
  · intro e he hne
    rcases hev e he with hmem | ⟨hec, hf⟩ | hempty
    · exact (h.evals e hmem hne).mono hsub
    · rw [hec]
      exact (h.hashes c hc _ _ hf hne).mono hsub
    · exact absurd hempty hne

theorem getSha1_mem (s : RedisManager) (f : String) :
    (f, s.scripts.getSha1 f) ∈ s.sha1s ∨ s.scripts.getSha1 f = "" := by
  unfold LoadScriptMgr.getSha1 LoadScriptMgr.find
  cases hfind : s.scripts.toList.find? fun it => it.file = f with
  | none => exact Or.inr rfl
  | some it =>
    have hfile : it.file = f := by simpa using List.find?_some hfind
    refine Or.inl (List.mem_map.mpr ⟨it, List.mem_of_find?_eq_some hfind, ?_⟩)
    rw [hfile]

theorem Inv.connected (h : s.Inv) (hw : s.master.stat = .working) (hc : s.master.context = some c) :
    c.connected = true ∧ s.Authenticated c.id := by
  obtain ⟨d, hd, ha⟩ := h.working hw
  obtain rfl : d = c := Option.some.inj (hd.symm.trans hc)
  refine ⟨?_, ha⟩
  cases hconn : d.connected with
  | true => rfl
  | false =>
    rw [(h.unconnected d hd hconn).2] at hw
    cases hw

theorem Inv.executed (h : s.Inv) (hw : s.master.stat = .working) {request : RedisRequest}
    (hc : s.master.context = some c) (heff : Executed s request c t) : t.Inv ∧ t.master.stat = .working := by
  obtain ⟨hconn, hauth⟩ := h.connected hw hc
  obtain ⟨c', hctx, hid, hconn', hpend⟩ := heff.context
  have hsha : t.sha1s = s.sha1s := by rw [sha1s, heff.scripts, sha1s]
  refine ⟨h.commanded hc hctx hid (hconn'.trans hconn) (hpend.imp_right And.left) (Or.inr hauth) (Or.inr heff.stat)
    heff.callbacks hsha ?_ heff.dispatching, heff.stat.trans hw⟩
  intro e he
  rcases heff.evals with heq | ⟨f, heq⟩ <;> rw [heq] at he
  · exact Or.inl he
  · rcases List.mem_append.mp he with he | he
    · exact Or.inl he
    · obtain rfl := List.mem_singleton.mp he
      exact Or.inr ((s.getSha1_mem f).imp_left fun hmem => ⟨rfl, hmem⟩)

theorem Inv.timerMs (h : s.Inv) (nowMs : UInt64) : ∃ t, s.timerMs nowMs = .ok t ∧ t.Inv := by
  unfold RedisManager.timerMs
  by_cases hw : s.master.stat = .working
  · rw [if_neg (by simp [hw])]
    have hload := besidesQueue_load s nowMs
    have hworking : (s.load nowMs).master.stat = .working := by
      simp only [besidesQueue, Prod.mk.injEq] at hload
      rw [hload.1, hw]
    obtain ⟨t, ht, hI, -⟩ := drain_ok (I := fun s => s.Inv ∧ s.master.stat = .working)
      (fun s hs => (hs.1.working hs.2).imp fun _ h => h.1)
      (fun s b hs => ⟨hs.1.congr rfl rfl rfl rfl rfl rfl, hs.2⟩)
      (fun s request c t hs hc heff => hs.1.executed hs.2 hc heff)
      ((s.load nowMs).rbIn.size.toNat + 1) ⟨h.of_besidesQueue hload, hworking⟩
    exact ⟨t, ht, hI⟩
  · rw [if_pos hw]
    exact ⟨s, rfl, h⟩

/-- The manager's own `AUTH` or `PING` is sent on a connection that is up. -/
theorem Inv.redisCommandOf (h : s.Inv) (hc : s.master.context = some c) (hconn : c.connected = true)
    (cmdtype : String) : ∃ t, s.redisCommandOf cmdtype = .ok t ∧ t.Inv ∧ t.master.stat = s.master.stat := by
  simp only [RedisManager.redisCommandOf, redisCommand, hc]
  refine ⟨_, rfl, ?_, rfl⟩
  exact h.commanded hc rfl rfl hconn (Or.inr rfl) (Or.inl rfl) (Or.inr rfl) rfl rfl (fun e he => Or.inl he) rfl

end Commands

section Replies

theorem sha1s_setSha1 {f sha g h : String} (hmem : (g, h) ∈ ({ s with scripts := s.scripts.setSha1 f sha } :
    RedisManager).sha1s) : (g, h) ∈ s.sha1s ∨ g = f ∧ h = sha := by
  simp only [sha1s, LoadScriptMgr.setSha1, Keyed.toList_map, List.map_map, List.mem_map, Function.comp_apply] at hmem
  obtain ⟨it, hit, heq⟩ := hmem
  split at heq <;> simp only [Prod.mk.injEq] at heq <;> obtain ⟨rfl, rfl⟩ := heq
  · rename_i hfile
    exact Or.inr ⟨hfile, rfl⟩
  · exact Or.inl (List.mem_map.mpr ⟨it, hit, rfl⟩)

/-- The oldest command of the connection gets its callback. -/
theorem Inv.answered (h : s.Inv) (hc : s.master.context = some c) {request : RedisRequest}
    {rest : List RedisRequest} (hpend : c.pending = request :: rest)
    (hctx : t.master.context = some { c with pending := rest })
    (hcb : s.callbacks ⊆ t.callbacks) (hstat : t.master.stat = s.master.stat ∨ t.Authenticated c.id)
    (hsha : ∀ f sha, (f, sha) ∈ t.sha1s → (f, sha) ∈ s.sha1s ∨ t.Delivered c.id f sha) (hev : t.evals = s.evals)
    (hdis : t.dispatching = s.dispatching) : t.Inv := by
  have hconn : c.connected = true := by
    cases hconn : c.connected with
    | true => rfl
    | false => simp [(h.unconnected c hc hconn).1] at hpend
  refine ⟨by simp [hctx], ?_, ?_, ?_, ?_, ?_, ?_⟩
  · intro hw
    refine ⟨_, hctx, ?_⟩
    rcases hstat with hstat | hauth
    · exact (h.connected (hstat ▸ hw) hc).2.mono hcb
    · exact hauth
  · intro d hd hfalse
    obtain rfl := Option.some.inj (hctx.symm.trans hd)
    simp [hconn] at hfalse
  · intro d hd q hq hb
    obtain rfl := Option.some.inj (hctx.symm.trans hd)
    exact (h.pending c hc q (by rw [hpend]; exact List.mem_cons_of_mem _ hq) hb).mono hcb
  · intro d hd f sha hf hne
    obtain rfl := Option.some.inj (hctx.symm.trans hd)
    rcases hsha f sha hf with hold | hnew
    · exact (h.hashes c hc f sha hold hne).mono hcb
    · exact hnew
  · rw [hev]
    exact fun e he hne => (h.evals e he hne).mono hcb
  · intro hd
    rw [(h.starting (hdis ▸ hd)).1] at hc
    cases hc

theorem Inv.replied (h : s.Inv) (hc : s.master.context = some c) {request : RedisRequest}
    {rest : List RedisRequest} (hpend : c.pending = request :: rest) {reply : RedisReply}
    (heff : Replied { s with master := { s.master with context := some { c with pending := rest } } } c request
      reply t) : t.Inv := by
  have hcb : s.callbacks ⊆ t.callbacks := by
    rw [heff.callbacks]
    exact List.subset_append_left _ _
  have hnew : (⟨c.id, request, some reply⟩ : Callback) ∈ t.callbacks := by simp [heff.callbacks]
  refine h.answered hc hpend heff.context hcb (heff.stat.imp_right ?_) ?_ heff.evals heff.dispatching
  · rintro ⟨-, htype, hok⟩
    -- a caller's request of the same type is sent only once the connection works
    by_cases hcls : request.cls = .base
    · exact ⟨_, hnew, rfl, hcls, htype, reply, rfl, hok⟩
    · exact (h.pending c hc request (by simp [hpend]) hcls).mono hcb
  · intro f sha hf
    rcases heff.scripts with heq | ⟨g, hcls, htype, heq⟩
    · rw [sha1s, heq] at hf
      exact Or.inl hf
    · rw [sha1s, heq] at hf
      refine (sha1s_setSha1 (s := s) hf).imp_right ?_
      rintro ⟨rfl, rfl⟩
      exact ⟨_, hnew, rfl, hcls, reply, rfl, htype, rfl⟩

end Replies

end CppBase.RedisTool.RedisManager
