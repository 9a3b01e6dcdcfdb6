import CppBase.Spec.BatchWorker

/-! Every future of a `BatchWorker` gets the result of its own input, whatever the threads do. -/

namespace CppBase.BatchWorker

open CppBase.Lib

variable {ι : Type} {s : BatchWorker ι}

def hand : Thread → List BatchRequest
  | .idle => []
  | .answering reqs _ => reqs

structure Sound (s : BatchWorker ι) : Prop where
  /-- Requests leave the queue in the order in which they came. -/
  order : s.taken ++ s.queue.map (·.number) = List.range s.inputs.length
  own : ∀ r ∈ s.queue, s.inputs[r.number]? = some r.input
  held : ∀ t, ∀ r ∈ hand (s.thread t),
    s.inputs[r.number]? = some r.input ∧ r.number ∈ s.taken ∧ s.result r.number = none
  scored : ∀ t reqs scores, s.thread t = .answering reqs scores →
    scores = fakeResult (reqs.map (·.input)) ∧ reqs ≠ [] ∧ reqs.length ≤ s.batch.toNatClampNeg
  once : ∀ t, ((hand (s.thread t)).map (·.number)).Nodup
  apart : ∀ t u, t ≠ u → ∀ n ∈ (hand (s.thread t)).map (·.number), n ∉ (hand (s.thread u)).map (·.number)
  answered : ∀ n v, s.result n = some v → n ∈ s.taken ∧ ∃ input, s.inputs[n]? = some input ∧ v = input.map (· * 2)
  settled : ∀ n ∈ s.taken, s.result n = none → ∃ t, n ∈ (hand (s.thread t)).map (·.number)
  stuck : s.batch.toInt ≤ 0 → s.taken = []

theorem sound_init (batch waitMs : Int32) : Sound ({ batch, waitMs } : BatchWorker ι) where
  order := rfl
  own := by simp
  held := by simp [hand]
  scored := by simp
  once := by simp [hand]
  apart := by simp [hand]
  answered := by simp
  settled := by simp
  stuck := fun _ => rfl

theorem getElem?_snoc {l : List (List Int32)} {n : ℕ} {x y : List Int32} (h : l[n]? = some x) :
    (l ++ [y])[n]? = some x := by
  obtain ⟨hlt, -⟩ := List.getElem?_eq_some_iff.mp h
  rw [List.getElem?_append_left hlt, h]

theorem Sound.add (h : Sound s) (img : List Int32) : Sound (s.add img) where
  order := by
    simp only [BatchWorker.add, List.map_append, List.length_append, List.length_singleton, List.range_succ]
    rw [← List.append_assoc, h.order]
    rfl
  own := by
    intro r hr
    obtain hr | hr := List.mem_append.mp hr
    · exact getElem?_snoc (h.own r hr)
    · rw [List.mem_singleton.mp hr]
      exact List.getElem?_concat_length
  held := fun t r hr => ⟨getElem?_snoc (h.held t r hr).1, (h.held t r hr).2⟩
  scored := h.scored
  once := h.once
  apart := h.apart
  answered := by
    intro n v hv
    obtain ⟨htaken, input, hinput, hval⟩ := h.answered n v hv
    exact ⟨htaken, input, getElem?_snoc hinput, hval⟩
  settled := h.settled
  stuck := h.stuck

theorem Sound.queue_fresh (h : Sound s) : (s.queue.map (·.number)).Nodup ∧
    ∀ n ∈ s.queue.map (·.number), n ∉ s.taken := by
  have hnodup : (s.taken ++ s.queue.map (·.number)).Nodup := h.order ▸ List.nodup_range
  obtain ⟨-, hqueue, hdisjoint⟩ := List.nodup_append.mp hnodup
  exact ⟨hqueue, fun n hn htaken => hdisjoint n htaken n hn rfl⟩

theorem Sound.hand_taken (h : Sound s) {t : ι} {n : ℕ} (hn : n ∈ (hand (s.thread t)).map (·.number)) :
    n ∈ s.taken := by
  obtain ⟨r, hr, rfl⟩ := List.mem_map.mp hn
  exact (h.held t r hr).2.1

theorem Sound.queued (h : Sound s) {r : BatchRequest} (hr : r ∈ s.queue) :
    s.inputs[r.number]? = some r.input ∧ r.number ∉ s.taken ∧ s.result r.number = none := by
  have hfresh := h.queue_fresh.2 r.number (List.mem_map_of_mem hr)
  refine ⟨h.own r hr, hfresh, ?_⟩
  by_contra hsome
  obtain ⟨v, hv⟩ := Option.ne_none_iff_exists'.mp hsome
  exact hfresh (h.answered r.number v hv).1

/-- A thread in `work` that has `reqs` still to answer. -/
def busy (reqs : List BatchRequest) : Thread :=
  if reqs = [] then .idle else .answering reqs (fakeResult (reqs.map (·.input)))

theorem hand_busy (reqs : List BatchRequest) : hand (busy reqs) = reqs := by
  unfold busy
  split
  · rename_i hnil
    rw [hnil, hand]
  · rfl

variable [DecidableEq ι]

theorem hand_update (thread : ι → Thread) (t u : ι) (reqs : List BatchRequest) :
    hand (Function.update thread t (busy reqs) u) = if u = t then reqs else hand (thread u) := by
  by_cases hu : u = t
  · rw [hu, Function.update_self, hand_busy, if_pos rfl]
  · rw [Function.update_of_ne hu, if_neg hu]

theorem Sound.scored_update (h : Sound s) (t : ι) {reqs : List BatchRequest}
    (hlength : reqs.length ≤ s.batch.toNatClampNeg) (u : ι) (reqs' : List BatchRequest) (scores : List (List Int32))
    (hu : Function.update s.thread t (busy reqs) u = .answering reqs' scores) :
    scores = fakeResult (reqs'.map (·.input)) ∧ reqs' ≠ [] ∧ reqs'.length ≤ s.batch.toNatClampNeg := by
  by_cases hut : u = t
  · rw [hut, Function.update_self, busy] at hu
    split at hu
    · cases hu
    · rename_i hne
      cases hu
      exact ⟨rfl, hne, hlength⟩
  · rw [Function.update_of_ne hut] at hu
    exact h.scored u reqs' scores hu

theorem takeBatch_ready {t : ι} {now : ℤ} (hidle : s.thread t = .idle)
    (hready : ¬ (s.queue.length < s.batch.toInt % 2 ^ 64 ∧ now < s.lastTime + s.waitMs.toInt)) :
    s.takeBatch t now = { s with
      lastTime := now
      queue := s.queue.drop s.batch.toNatClampNeg
      taken := s.taken ++ (s.queue.take s.batch.toNatClampNeg).map (·.number)
      thread := Function.update s.thread t (busy (s.queue.take s.batch.toNatClampNeg)) } := by
  have hthread : s.thread = Function.update s.thread t .idle := by rw [← hidle, Function.update_eq_self]
  rw [BatchWorker.takeBatch, if_neg hready, busy]
  dsimp only
  split
  · rw [← hthread]
  · rfl

theorem Sound.takeBatch (h : Sound s) {t : ι} (hidle : s.thread t = .idle) (now : ℤ) :
    Sound (s.takeBatch t now) := by
  by_cases hready : s.queue.length < s.batch.toInt % 2 ^ 64 ∧ now < s.lastTime + s.waitMs.toInt
  · rwa [BatchWorker.takeBatch, if_pos hready]
  rw [takeBatch_ready hidle hready]
  have hqueued : ∀ r ∈ s.queue.take s.batch.toNatClampNeg, _ := fun r hr => h.queued (List.mem_of_mem_take hr)
  have hfresh : ∀ n ∈ (s.queue.take s.batch.toNatClampNeg).map (·.number), n ∉ s.taken := by
    intro n hn
    obtain ⟨r, hr, rfl⟩ := List.mem_map.mp hn
    exact (hqueued r hr).2.1
  refine ⟨?_, fun r hr => h.own r (List.mem_of_mem_drop hr), ?_, h.scored_update t (List.length_take_le _ _),
    ?_, ?_, ?_, ?_, ?_⟩
  · rw [List.append_assoc, ← List.map_append, List.take_append_drop]
    exact h.order
  · intro u r hr
    rw [hand_update] at hr
    split at hr
    · obtain ⟨hown, -, hnone⟩ := hqueued r hr
      exact ⟨hown, List.mem_append_right _ (List.mem_map_of_mem hr), hnone⟩
    · obtain ⟨hown, htaken, hnone⟩ := h.held u r hr
      exact ⟨hown, List.mem_append_left _ htaken, hnone⟩
  · intro u
    rw [hand_update]
    split
    · rw [List.map_take]
      exact h.queue_fresh.1.sublist (List.take_sublist _ _)
    · exact h.once u
  · -- the requests just taken are in no other hand
    intro u v huv n hn hn'
    rw [hand_update] at hn hn'
    split at hn <;> split at hn'
    · rename_i hu hv
      exact huv (hu.trans hv.symm)
    · exact hfresh n hn (h.hand_taken hn')
    · exact hfresh n hn' (h.hand_taken hn)
    · exact h.apart u v huv n hn hn'
  · intro n v hv
    obtain ⟨htaken, hval⟩ := h.answered n v hv
    exact ⟨List.mem_append_left _ htaken, hval⟩
  · intro n hn hnone
    obtain hn | hn := List.mem_append.mp hn
    · obtain ⟨u, hu⟩ := h.settled n hn hnone
      refine ⟨u, ?_⟩
      rw [hand_update, if_neg]
      · exact hu
      · rintro rfl
        simp [hidle, hand] at hu
    · refine ⟨t, ?_⟩
      rw [hand_update, if_pos rfl]
      exact hn
  · intro hbatch
    have hzero : s.batch.toNatClampNeg = 0 := by
      rw [← Int32.toNat_toInt]
      exact Int.toNat_of_nonpos hbatch
    dsimp only
    rw [h.stuck hbatch, hzero]
    rfl

/-- What a thread has left when it has answered `r`: neither it nor any other thread has `r`. -/
theorem Sound.hand_rest (h : Sound s) {t : ι} {r : BatchRequest} {reqs : List BatchRequest}
    (ht : hand (s.thread t) = r :: reqs) {u : ι} {n : ℕ}
    (hn : n ∈ (if u = t then reqs else hand (s.thread u)).map (·.number)) :
    n ∈ (hand (s.thread u)).map (·.number) ∧ n ≠ r.number := by
  have honce := h.once t
  rw [ht, List.map_cons, List.nodup_cons] at honce
  split at hn
  · rename_i hu
    rw [hu, ht]
    exact ⟨List.mem_cons_of_mem _ hn, fun heq => honce.1 (heq ▸ hn)⟩
  · rename_i hu
    refine ⟨hn, fun heq => h.apart u t hu n hn ?_⟩
    rw [ht, heq]
    exact List.mem_cons_self

/-- A thread answers the next of its requests with the result of its input. -/
theorem Sound.setValue (h : Sound s) {t : ι} {r : BatchRequest} {reqs : List BatchRequest}
    {scores : List (List Int32)} (ht : s.thread t = .answering (r :: reqs) scores) :
    ∃ u, s.setValue t r reqs scores = .ok u ∧ Sound u ∧ u = { s with
      result := Function.update s.result r.number (some (r.input.map (· * 2)))
      thread := Function.update s.thread t (busy reqs) } := by
  obtain ⟨rfl, -, hlength⟩ := h.scored t _ _ ht
  have hhand : hand (s.thread t) = r :: reqs := by rw [ht, hand]
  obtain ⟨hown, htaken, hnone⟩ := h.held t r (hhand ▸ List.mem_cons_self)
  have honce := h.once t
  rw [hhand, List.map_cons, List.nodup_cons] at honce
  refine ⟨{ s with
    result := Function.update s.result r.number (some (r.input.map (· * 2)))
    thread := Function.update s.thread t (busy reqs) }, ?_,
    ⟨h.order, h.own, ?_, h.scored_update t (Nat.le_of_succ_le hlength), ?_, ?_, ?_, ?_, h.stuck⟩, rfl⟩
  · show BatchWorker.setValue s t r reqs (r.input.map (· * 2) :: fakeResult (reqs.map (·.input))) = _
    rw [BatchWorker.setValue, hnone, busy]
  · intro u x hx
    dsimp only at hx ⊢
    rw [hand_update] at hx
    rw [Function.update_of_ne (h.hand_rest hhand (List.mem_map_of_mem hx)).2]
    split at hx
    · rename_i hu
      subst hu
      exact h.held u x (hhand ▸ List.mem_cons_of_mem _ hx)
    · exact h.held u x hx
  · intro u
    rw [hand_update]
    split
    · exact honce.2
    · exact h.once u
  · intro u v huv n hn hn'
    rw [hand_update] at hn hn'
    exact h.apart u v huv n (h.hand_rest hhand hn).1 (h.hand_rest hhand hn').1
  · intro n v hv
    dsimp only at hv ⊢
    by_cases hn : n = r.number
    · subst hn
      rw [Function.update_self] at hv
      exact ⟨htaken, r.input, hown, (Option.some.inj hv).symm⟩
    · rw [Function.update_of_ne hn] at hv
      exact h.answered n v hv
  · intro n hn hnone'
    dsimp only at hnone' ⊢
    have hne : n ≠ r.number := by
      rintro rfl
      simp at hnone'
    rw [Function.update_of_ne hne] at hnone'
    obtain ⟨u, hu⟩ := h.settled n hn hnone'
    refine ⟨u, ?_⟩
    rw [hand_update]
    split
    · rename_i hut
      subst hut
      rw [hhand, List.map_cons] at hu
      exact (List.mem_cons.mp hu).resolve_left hne
    · exact hu

theorem step_sound (h : Sound s) (e : Event ι) :
    ∃ u, s.step e = .ok u ∧ Sound u ∧ u.batch = s.batch ∧ u.waitMs = s.waitMs := by
  cases e with
  | add img => exact ⟨_, rfl, h.add img, rfl, rfl⟩
  | takeBatch t now =>
    rw [step]
    cases ht : s.thread t with
    | idle =>
      refine ⟨_, rfl, h.takeBatch ht now, ?_, ?_⟩
      · unfold BatchWorker.takeBatch
        split <;> rfl
      · unfold BatchWorker.takeBatch
        split <;> rfl
    | answering reqs scores => exact ⟨s, rfl, h, rfl, rfl⟩
  | setValue t =>
    rw [step]
    cases ht : s.thread t with
    | idle => exact ⟨s, rfl, h, rfl, rfl⟩
    | answering reqs scores =>
      cases reqs with
      | nil => exact ⟨s, rfl, h, rfl, rfl⟩
      | cons r reqs =>
        obtain ⟨u, hu, hsound, hframe⟩ := h.setValue ht
        exact ⟨u, hu, hsound, by rw [hframe], by rw [hframe]⟩

theorem run_sound (batch waitMs : Int32) (es : List (Event ι)) :
    ∃ s, runAll step { batch, waitMs } es = .ok s ∧ Sound s ∧ s.batch = batch ∧ s.waitMs = waitMs := by
  have hes : Along step (fun _ _ => True) ({ batch, waitMs } : BatchWorker ι) es := fun _ _ _ _ _ _ => trivial
  refine hes.runAll_ok (I := fun s => Sound s ∧ s.batch = batch ∧ s.waitMs = waitMs) ?_
    ⟨sound_init batch waitMs, rfl, rfl⟩
  rintro s e ⟨h, hbatch, hwait⟩ -
  obtain ⟨u, hu, hsound, hbatch', hwait'⟩ := step_sound h e
  exact ⟨u, hu, hsound, hbatch'.trans hbatch, hwait'.trans hwait⟩

/-- A thread left to itself answers all the requests it has. -/
theorem answers_all (reqs : List BatchRequest) {scores : List (List Int32)} {t : ι} (h : Sound s)
    (ht : s.thread t = .answering reqs scores) :
    ∃ u, runAll step s (List.replicate reqs.length (.setValue t)) = .ok u ∧
      (∀ r ∈ reqs, u.result r.number = some (r.input.map (· * 2))) ∧
      ∀ n, n ∉ reqs.map (·.number) → u.result n = s.result n := by
  induction reqs generalizing s scores with
  | nil => exact ⟨s, rfl, by simp, fun _ _ => rfl⟩
  | cons r reqs ih =>
    have honce := h.once t
    rw [ht, hand, List.map_cons, List.nodup_cons] at honce
    obtain ⟨v, hv, hsound, hframe⟩ := h.setValue ht
    have hstep : step s (.setValue t) = .ok v := by rw [step, ht]; exact hv
    have hr : v.result r.number = some (r.input.map (· * 2)) := by rw [hframe]; exact Function.update_self _ _ _
    have hother : ∀ n, n ≠ r.number → v.result n = s.result n := by
      intro n hn
      rw [hframe]
      exact Function.update_of_ne hn _ _
    rw [List.length_cons, List.replicate_succ, runAll_cons hstep]
    cases reqs with
    | nil =>
      refine ⟨v, rfl, fun x hx => ?_, fun n hn => ?_⟩
      · rw [List.mem_singleton.mp hx]
        exact hr
      · exact hother n (by simpa using hn)
    | cons r' reqs =>
      have hthread : v.thread t = .answering (r' :: reqs) (fakeResult ((r' :: reqs).map (·.input))) := by
        rw [hframe]
        exact Function.update_self _ _ _
      obtain ⟨u, hu, hall, hrest⟩ := ih hsound hthread
      refine ⟨u, hu, fun x hx => ?_, fun n hn => ?_⟩
      · obtain rfl | hx := List.mem_cons.mp hx
        · rw [hrest _ honce.1, hr]
        · exact hall x hx
      · rw [List.map_cons, List.mem_cons, not_or] at hn
        rw [hrest n hn.2, hother n hn.1]

/-- A positive size stays the same where it is read as unsigned. -/
theorem unsigned_size {batch : Int32} (h : 1 ≤ batch.toInt) : batch.toInt % 2 ^ 64 = batch.toInt := by
  have hlt := batch.toInt_lt
  omega

/-- A thread that does not find `work` too early answers what it takes. -/
theorem Sound.work_answers (h : Sound s) {t : ι} {now : ℤ} (hidle : s.thread t = .idle)
    (hready : ¬ (s.queue.length < s.batch.toInt % 2 ^ 64 ∧ now < s.lastTime + s.waitMs.toInt)) :
    ∃ u, runAll step s (.takeBatch t now ::
        List.replicate (s.queue.take s.batch.toNatClampNeg).length (.setValue t)) = .ok u ∧
      ∀ r ∈ s.queue.take s.batch.toNatClampNeg, u.result r.number = some (r.input.map (· * 2)) := by
  have hstep : step s (.takeBatch t now) = .ok (s.takeBatch t now) := by rw [step, hidle]
  rw [runAll_cons hstep]
  by_cases hnil : s.queue.take s.batch.toNatClampNeg = []
  · refine ⟨s.takeBatch t now, by rw [hnil]; rfl, ?_⟩
    simp [hnil]
  · have hthread : (s.takeBatch t now).thread t = .answering (s.queue.take s.batch.toNatClampNeg)
        (fakeResult ((s.queue.take s.batch.toNatClampNeg).map (·.input))) := by
      rw [takeBatch_ready hidle hready]
      dsimp only
      rw [Function.update_self, busy, if_neg hnil]
    obtain ⟨u, hu, hall, -⟩ := answers_all _ (h.takeBatch hidle now) hthread
    exact ⟨u, hu, hall⟩

/-- No promise is set twice and no score is missing. Requests are taken in the order in which they
came, at most `batch` at a time; each is in the queue, in the hands of a thread, or has got the
result of its own input. Where `batch` is positive, as soon as a batch is full or the time has
passed, a thread that calls `work` answers the first of the queue; else none is ever taken. -/
theorem each_future_its_own (batch waitMs : Int32) (es : List (Event ι)) :
    ∃ s, runAll step { batch, waitMs } es = .ok s ∧
      s.taken ++ s.queue.map (·.number) = List.range s.inputs.length ∧
      (∀ t, (hand (s.thread t)).length ≤ batch.toNatClampNeg) ∧
      (∀ n, ∀ input, s.inputs[n]? = some input →
        s.result n = none ∧ (n ∈ s.queue.map (·.number) ∨ ∃ t, n ∈ (hand (s.thread t)).map (·.number)) ∨
        s.result n = some (input.map (· * 2))) ∧
      (1 ≤ batch.toInt → ∀ t now, s.thread t = .idle →
        batch.toInt ≤ s.queue.length ∨ s.lastTime + waitMs.toInt ≤ now →
        ∃ u, runAll step s (.takeBatch t now ::
            List.replicate (s.queue.take batch.toNatClampNeg).length (.setValue t)) = .ok u ∧
          ∀ r ∈ s.queue.take batch.toNatClampNeg, u.result r.number = some (r.input.map (· * 2))) ∧
      (batch.toInt ≤ 0 → s.taken = []) := by
  obtain ⟨s, hs, h, rfl, rfl⟩ := run_sound batch waitMs es
  refine ⟨s, hs, h.order, fun t => ?_, fun n input hinput => ?_, fun hbatch t now hidle hready => ?_, h.stuck⟩
  · cases ht : s.thread t with
    | idle => exact Nat.zero_le _
    | answering reqs scores => exact (h.scored t reqs scores ht).2.2
  · cases hres : s.result n with
    | some v =>
      obtain ⟨-, input', hinput', hv⟩ := h.answered n v hres
      cases hinput.symm.trans hinput'
      exact .inr (congrArg some hv)
    | none =>
      have hn : n ∈ s.taken ++ s.queue.map (·.number) := by
        rw [h.order, List.mem_range]
        exact (List.getElem?_eq_some_iff.mp hinput).1
      obtain hn | hn := List.mem_append.mp hn
      · exact .inl ⟨rfl, .inr (h.settled n hn hres)⟩
      · exact .inl ⟨rfl, .inl hn⟩
  · rw [← unsigned_size hbatch] at hready
    exact h.work_answers hidle (by omega)

/-- Two threads and a batch of one: the second thread is done with its request before the first. -/
example : ∃ s : BatchWorker Bool, runAll step { batch := 1, waitMs := 5 }
    [.add [3], .add [4, 5], .takeBatch false 9, .takeBatch true 9, .setValue true, .setValue false] = .ok s ∧
    s.result 0 = some [6] ∧ s.result 1 = some [8, 10] :=
  ⟨_, rfl, rfl, rfl⟩

end CppBase.BatchWorker
