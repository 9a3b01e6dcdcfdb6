import Mathlib.Data.Fintype.Basic
import CppBase.Lib.Fold
import CppBase.Lib.Tokens
import CppBase.Spec.PushService

/-! What becomes of buffered results. `ret` starts as `PROCESS_ERROR_OK` and no
failed post changes it, so a message is never put back for a later round: it is
lost as soon as one round gets no answer. -/

namespace CppBase.AsyncCpp

open CppBase.Lib

def serials (l : List PushMessage) : Multiset ℕ := (l.map (·.serial) : Multiset ℕ)

theorem serials_cons (m : PushMessage) (l : List PushMessage) : serials (m :: l) = {m.serial} + serials l := by
  rw [Multiset.singleton_add]
  rfl

theorem serials_snoc (l : List PushMessage) (m : PushMessage) : serials (l ++ [m]) = serials l + {m.serial} := by
  rw [serials, List.map_append, ← Multiset.coe_add]
  rfl

theorem mem_serials {i : ℕ} {l : List PushMessage} : i ∈ serials l ↔ ∃ m ∈ l, m.serial = i := by
  simp [serials]

namespace PushThread

/-- The message that a call of `flushMsg` has in its hands. -/
def msg : PushThread → Option PushMessage
  | .idle => none
  | .posting m _ _ => some m
  | .finishing m _ _ => some m

/-- Its serial, as long as it has not been delivered. -/
def held : PushThread → Multiset ℕ
  | .idle => 0
  | .posting m _ _ => {m.serial}
  | .finishing m _ answered => if answered then 0 else {m.serial}

/-- Nothing has been put back so far, and nothing will be; an answer has been recorded. -/
def Fresh (delivered : List ℕ) : PushThread → Prop
  | .idle => True
  | .posting m _ ret => m.nextHop = 0 ∧ ret = processErrorOk
  | .finishing m ret answered => m.nextHop = 0 ∧ ret = processErrorOk ∧ (answered = true → m.serial ∈ delivered)

theorem Fresh.mono {d d' : List ℕ} (hsub : d ⊆ d') {th : PushThread} (h : th.Fresh d) : th.Fresh d' := by
  cases th with
  | idle => trivial
  | posting m x ret => exact h
  | finishing m ret answered => exact ⟨h.1, h.2.1, fun ha => hsub (h.2.2 ha)⟩

end PushThread

namespace PushService

variable {n : ℕ} {s : PushService n} {t : Fin n}

/-- What the retries are for: no message is lost before its last hop, none is
delivered twice, and no round starts before its time. -/
structure NotDropped (s : PushService n) : Prop where
  kept : ∀ i < s.nextSerial, (∃ m ∈ s.messages, m.serial = i) ∨ (∃ t m, (s.threads t).msg = some m ∧ m.serial = i) ∨
    i ∈ s.delivered ∨ ∃ m ∈ s.failed, m.serial = i ∧ 300 ≤ m.nextHop
  once : s.delivered.Nodup
  onTime : ∀ r ∈ s.rounds, r.1.createTime + r.1.nextHop ≤ r.2

/-- The serials outside the threads. -/
def resting (s : PushService n) : Multiset ℕ := serials s.messages + s.delivered + serials s.failed

/-- Every serial is in one place: in the list, with a thread, delivered or given up. -/
structure Inv (s : PushService n) : Prop where
  tokens : s.resting + ∑ t, (s.threads t).held = Multiset.range s.nextSerial
  threads : ∀ t, (s.threads t).Fresh s.delivered
  messages : ∀ m ∈ s.messages, m.nextHop = 0
  failed : ∀ m ∈ s.failed, m.nextHop = 0
  onTime : ∀ r ∈ s.rounds, r.1.createTime + r.1.nextHop ≤ r.2

theorem inv_init (n : ℕ) : (init n).Inv where
  tokens := by simp [init, resting, serials, PushThread.held]
  threads _ := trivial
  messages := nofun
  failed := nofun
  onTime := nofun

section Steps

/-- The tokens after thread `t` has changed, and the rest of the state with it. -/
theorem Inv.tokens_update (h : s.Inv) {u : PushService n} {th : PushThread}
    (hthreads : u.threads = Function.update s.threads t th)
    (hmove : u.resting + th.held = s.resting + (s.threads t).held) (hserial : u.nextSerial = s.nextSerial) :
    u.resting + ∑ t, (u.threads t).held = Multiset.range u.nextSerial := by
  have hheld : (fun i => (u.threads i).held) = Function.update (fun i => (s.threads i).held) t th.held := by
    funext i
    rw [hthreads]
    by_cases hi : i = t
    · subst hi
      simp
    · simp [hi]
  rw [hheld, hserial]
  exact Lib.tokens_update h.tokens hmove

theorem Inv.threads_update (h : s.Inv) {th : PushThread} {d : List ℕ} (hsub : s.delivered ⊆ d) (hth : th.Fresh d)
    (i : Fin n) : (Function.update s.threads t th i).Fresh d := by
  by_cases hi : i = t
  · subst hi
    simpa using hth
  · simpa [hi] using (h.threads i).mono hsub

theorem Inv.add (h : s.Inv) (traceid server result : String) (now : ℤ) :
    (s.addMsgToBuffer traceid server result now).2.Inv := by
  unfold addMsgToBuffer
  split_ifs
  · exact h
  · refine ⟨?_, h.threads, ?_, h.failed, h.onTime⟩
    · have htokens := h.tokens
      simp only [resting] at htokens ⊢
      rw [Multiset.range_succ, ← htokens, serials_snoc, ← Multiset.singleton_add]
      abel
    · intro m hm
      rcases List.mem_append.mp hm with hm | hm
      · exact h.messages m hm
      · rw [List.mem_singleton.mp hm]

theorem Inv.flushBegin (h : s.Inv) (hidle : s.threads t = .idle) (now : ℤ) : (s.flushBegin t now).Inv := by
  cases hmsgs : s.messages with
  | nil => simpa only [PushService.flushBegin, hmsgs] using h
  | cons msg rest =>
    have hmem : ∀ m ∈ rest, m.nextHop = 0 := fun m hm => h.messages m (by simp [hmsgs, hm])
    have hmsg : msg.nextHop = 0 := h.messages msg (by simp [hmsgs])
    simp only [PushService.flushBegin, hmsgs]
    split_ifs with hlate
    · refine ⟨?_, h.threads, ?_, h.failed, h.onTime⟩
      · have htokens := h.tokens
        simp only [resting, hmsgs] at htokens ⊢
        rw [← htokens, serials_snoc, serials_cons]
        abel
      · intro m hm
        rcases List.mem_append.mp hm with hm | hm
        · exact hmem m hm
        · rwa [List.mem_singleton.mp hm]
    · refine ⟨h.tokens_update rfl ?_ rfl, h.threads_update (List.Subset.refl _) ⟨hmsg, rfl⟩, hmem, h.failed, ?_⟩
      · simp only [resting, hmsgs, hidle, PushThread.held, serials_cons]
        abel
      · intro r hr
        rcases List.mem_append.mp hr with hr | hr
        · exact h.onTime r hr
        · rw [List.mem_singleton.mp hr]
          exact not_lt.mp hlate

theorem Inv.flushPost (h : s.Inv) {msg : PushMessage} {x : ℕ} {ret : ℤ} (hposting : s.threads t = .posting msg x ret)
    (code : ℤ) : (s.flushPost t msg x ret code).Inv := by
  have hfresh : (PushThread.posting msg x ret).Fresh s.delivered := hposting ▸ h.threads t
  unfold PushService.flushPost
  split_ifs
  · exact ⟨h.tokens_update rfl (by rw [hposting]; rfl) rfl, h.threads_update (List.Subset.refl _) hfresh, h.messages,
      h.failed, h.onTime⟩
  · exact ⟨h.tokens_update rfl (by rw [hposting]; rfl) rfl,
      h.threads_update (List.Subset.refl _) ⟨hfresh.1, hfresh.2, nofun⟩, h.messages, h.failed, h.onTime⟩
  · refine ⟨h.tokens_update rfl ?_ rfl, h.threads_update (List.subset_append_left _ _) ⟨hfresh.1, rfl, ?_⟩,
      h.messages, h.failed, h.onTime⟩
    · rw [hposting]
      simp only [resting, setThread, PushThread.held, if_true]
      rw [← Multiset.coe_add, Multiset.coe_singleton]
      abel
    · exact fun _ => List.mem_append_right _ List.mem_cons_self

theorem flushEnd_fresh {msg : PushMessage} {ret : ℤ} {answered : Bool} (hret : ret = processErrorOk) :
    s.flushEnd t msg ret answered =
      { s.setThread t .idle with failed := if answered then s.failed else s.failed ++ [msg] } :=
  if_neg fun hne => hne.1 hret.symm

theorem Inv.flushEnd (h : s.Inv) {msg : PushMessage} {ret : ℤ} {answered : Bool}
    (hfinishing : s.threads t = .finishing msg ret answered) : (s.flushEnd t msg ret answered).Inv := by
  obtain ⟨hhop, hret, -⟩ : (PushThread.finishing msg ret answered).Fresh s.delivered := hfinishing ▸ h.threads t
  rw [flushEnd_fresh hret]
  refine ⟨h.tokens_update rfl ?_ rfl, h.threads_update (List.Subset.refl _) trivial, h.messages, ?_, h.onTime⟩
  · rw [hfinishing]
    cases answered with
    | true => simp [resting, setThread, PushThread.held]
    | false =>
      simp only [resting, setThread, PushThread.held, Bool.false_eq_true, if_false, serials_snoc]
      abel
  · intro m hm
    cases answered with
    | true => exact h.failed m hm
    | false =>
      rcases List.mem_append.mp hm with hm | hm
      · exact h.failed m hm
      · rwa [List.mem_singleton.mp hm]

theorem Inv.step (h : s.Inv) (e : Event n) : (s.step e).Inv := by
  cases e with
  | add traceid server result now => exact h.add traceid server result now
  | flush t now =>
    cases ht : s.threads t with
    | idle => simpa only [PushService.step, ht] using h.flushBegin ht now
    | _ => simpa only [PushService.step, ht] using h
  | post t code =>
    cases ht : s.threads t with
    | posting msg x ret => simpa only [PushService.step, ht] using h.flushPost ht code
    | _ => simpa only [PushService.step, ht] using h
  | finish t =>
    cases ht : s.threads t with
    | finishing msg ret answered => simpa only [PushService.step, ht] using h.flushEnd ht
    | _ => simpa only [PushService.step, ht] using h

end Steps

theorem inv_run (n : ℕ) (events : List (Event n)) : (run n events).Inv :=
  List.foldlRecOn events _ (inv_init n) fun _ h e _ => h.step e

section Places

theorem Inv.nodup (h : s.Inv) : (s.resting + ∑ t, (s.threads t).held).Nodup := by
  rw [h.tokens]
  exact Multiset.nodup_range _

theorem Inv.place (h : s.Inv) {i : ℕ} (hi : i < s.nextSerial) : i ∈ s.resting ∨ ∃ t, i ∈ (s.threads t).held := by
  have hmem : i ∈ s.resting + ∑ t, (s.threads t).held := by
    rw [h.tokens]
    exact Multiset.mem_range.mpr hi
  rcases Multiset.mem_add.mp hmem with hrest | hheld
  · exact .inl hrest
  · obtain ⟨t, -, ht⟩ := Multiset.mem_sum.mp hheld
    exact .inr ⟨t, ht⟩

theorem exists_msg_of_held {th : PushThread} {i : ℕ} (hi : i ∈ th.held) : ∃ m, th.msg = some m ∧ m.serial = i := by
  cases th with
  | idle => simp [PushThread.held] at hi
  | posting m x ret => exact ⟨m, rfl, (Multiset.mem_singleton.mp hi).symm⟩
  | finishing m ret answered =>
    cases answered with
    | true => simp [PushThread.held] at hi
    | false => exact ⟨m, rfl, (Multiset.mem_singleton.mp hi).symm⟩

theorem Inv.held_or_delivered (h : s.Inv) {m : PushMessage} (hm : (s.threads t).msg = some m) :
    m.serial ∈ (s.threads t).held ∨ m.serial ∈ s.delivered := by
  have hfresh := h.threads t
  cases ht : s.threads t with
  | idle =>
    rw [ht] at hm
    cases hm
  | posting m' x ret =>
    rw [ht] at hm
    obtain rfl := Option.some.inj hm
    exact .inl (Multiset.mem_singleton_self _)
  | finishing m' ret answered =>
    rw [ht] at hm hfresh
    obtain rfl := Option.some.inj hm
    cases answered with
    | true => exact .inr (hfresh.2.2 rfl)
    | false => exact .inl (Multiset.mem_singleton_self _)

theorem Inv.given_up (h : s.Inv) {i : ℕ} (hi : i ∈ serials s.failed) :
    i ∉ serials s.messages ∧ i ∉ s.delivered ∧ ∀ t, i ∉ (s.threads t).held := by
  obtain ⟨hresting, -, hheld⟩ := Multiset.nodup_add.mp h.nodup
  obtain ⟨-, -, hdisjoint⟩ := Multiset.nodup_add.mp hresting
  have hother := Multiset.disjoint_right.mp hdisjoint hi
  rw [Multiset.mem_add, not_or] at hother
  refine ⟨hother.1, hother.2, fun t ht => ?_⟩
  have hin : i ∈ s.resting := Multiset.mem_add.mpr (.inr hi)
  exact Multiset.disjoint_left.mp hheld hin (Multiset.mem_sum.mpr ⟨t, Finset.mem_univ t, ht⟩)

end Places

theorem Inv.notDropped (h : s.Inv) (hfailed : s.failed = []) : s.NotDropped := by
  obtain ⟨hresting, -, -⟩ := Multiset.nodup_add.mp h.nodup
  obtain ⟨hleft, -, -⟩ := Multiset.nodup_add.mp hresting
  refine ⟨fun i hi => ?_, Multiset.coe_nodup.mp (Multiset.nodup_add.mp hleft).2.1, h.onTime⟩
  rcases h.place hi with hrest | ⟨t, ht⟩
  · rw [resting, hfailed, Multiset.mem_add, Multiset.mem_add] at hrest
    rcases hrest with (hmessages | hdelivered) | hnone
    · exact .inl (mem_serials.mp hmessages)
    · exact .inr (.inr (.inl hdelivered))
    · simp [serials] at hnone
  · obtain ⟨m, hm, rfl⟩ := exists_msg_of_held ht
    exact .inr (.inl ⟨t, m, hm, rfl⟩)

theorem Inv.failed_eq_nil (h : s.Inv) (hkept : s.NotDropped) : s.failed = [] := by
  by_contra hne
  obtain ⟨m, hm⟩ := List.exists_mem_of_ne_nil _ hne
  have hserial : m.serial ∈ serials s.failed := mem_serials.mpr ⟨m, hm, rfl⟩
  obtain ⟨hmessages, hdelivered, hheld⟩ := h.given_up hserial
  have hlt : m.serial < s.nextSerial := by
    rw [← Multiset.mem_range, ← h.tokens]
    exact Multiset.mem_add.mpr (.inl (Multiset.mem_add.mpr (.inr hserial)))
  rcases hkept.kept m.serial hlt with hin | ⟨t, m', hm', heq⟩ | hin | ⟨m', hm', -, hhop⟩
  · exact hmessages (mem_serials.mpr hin)
  · rcases h.held_or_delivered hm' with hin | hin
    · exact hheld t (heq ▸ hin)
    · exact hdelivered (heq ▸ hin)
  · exact hdelivered hin
  · rw [h.failed m' hm'] at hhop
    exact absurd hhop (by decide)

section Rounds

/-- A call of `flushMsg` is about to return, and all its posts have failed. -/
def Unanswered (s : PushService n) : Event n → Prop
  | .finish t => ∃ msg ret, s.threads t = .finishing msg ret false
  | _ => False

theorem failed_step (s : PushService n) (e : Event n) :
    (s.step e).failed = [] ↔ s.failed = [] ∧ ¬ s.Unanswered e := by
  cases e with
  | add traceid server result now =>
    simp only [PushService.step, addMsgToBuffer, Unanswered]
    split_ifs <;> simp
  | flush t now =>
    have hbegin : (s.flushBegin t now).failed = s.failed := by
      unfold PushService.flushBegin
      split
      · rfl
      · split_ifs <;> rfl
    cases ht : s.threads t <;> simp [PushService.step, ht, hbegin, Unanswered]
  | post t code =>
    have hpost : ∀ msg x ret, (s.flushPost t msg x ret code).failed = s.failed := by
      intro msg x ret
      unfold PushService.flushPost
      split_ifs <;> rfl
    cases ht : s.threads t <;> simp [PushService.step, ht, hpost, Unanswered]
  | finish t =>
    have hend : ∀ msg ret answered, (s.flushEnd t msg ret answered).failed =
        if answered then s.failed else s.failed ++ [msg] := by
      intro msg ret answered
      unfold PushService.flushEnd
      dsimp only
      split_ifs <;> rfl
    cases ht : s.threads t with
    | finishing msg ret answered => cases answered <;> simp [PushService.step, ht, hend, Unanswered]
    | _ => simp [PushService.step, ht, Unanswered]

theorem failed_run (n : ℕ) (events : List (Event n)) :
    (run n events).failed = [] ↔ ∀ pre e post, events = pre ++ e :: post → ¬ (run n pre).Unanswered e := by
  have hfold := foldl_iff (I := fun s : PushService n => s.failed = []) failed_step events (init n)
  exact hfold.trans (and_iff_right rfl)

end Rounds

/-- Whatever the threads and the servers do: the buffer has kept its promise
exactly if no round has returned with all its posts failed. -/
theorem buffer_keeps_iff (n : ℕ) (events : List (Event n)) :
    (run n events).NotDropped ↔ ∀ pre e post, events = pre ++ e :: post → ¬ (run n pre).Unanswered e := by
  rw [← failed_run]
  exact ⟨(inv_run n events).failed_eq_nil, (inv_run n events).notDropped⟩

def unanswered : List (Event 1) :=
  [.add "trace" "server" "result" 1000, .flush 0 1001, .post 0 503, .post 0 503, .post 0 503, .finish 0]

theorem unanswered_round_drops :
    (run 1 unanswered).nextSerial = 1 ∧ (run 1 unanswered).messages = [] ∧ (run 1 unanswered).threads 0 = .idle ∧
      (run 1 unanswered).delivered = [] ∧ ¬ (run 1 unanswered).NotDropped := by
  have hfailed : (run 1 unanswered).failed ≠ [] := by decide +kernel
  exact ⟨by decide +kernel, by decide +kernel, by decide +kernel, by decide +kernel,
    fun hkept => hfailed ((inv_run 1 unanswered).failed_eq_nil hkept)⟩

end PushService

end CppBase.AsyncCpp
