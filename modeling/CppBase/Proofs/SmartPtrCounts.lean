import CppBase.Spec.SmartPtr

/-! The count of a `smart_ptr` is the number of those that share it, and the last one deletes. -/

namespace CppBase.SmartPtr

open CppBase.Lib

def Handle.owns (c : ℕ) (p : Handle) : Bool := p.ptr.isSome && p.sharedCount = some c

variable {owners owners' : List Handle} {h : Heap} {p q : Handle} {o c v : ℕ}

/-- The heap is what the pointers `owners` need: a count for those that share it, and the object. -/
structure Counted (owners : List Handle) (h : Heap) : Prop where
  held : ∀ p ∈ owners, ∀ o, p.ptr = some o → ∃ c, p.sharedCount = some c
  count : ∀ c, h.count c = if owners.countP (·.owns c) = 0 then none else some (owners.countP (·.owns c) : ℤ)
  pair : ∀ o o' c c', ⟨some o, some c⟩ ∈ owners → ⟨some o', some c'⟩ ∈ owners → (o = o' ↔ c = c')
  object : ∀ o, h.object o = true ↔ ∃ p ∈ owners, p.ptr = some o

theorem Counted.perm (hc : Counted owners h) (hp : owners.Perm owners') : Counted owners' h where
  held := fun p hmem => hc.held p (hp.mem_iff.mpr hmem)
  count := fun c => by rw [hc.count c, hp.countP_eq]
  pair := fun o o' c c' h1 h2 => hc.pair o o' c c' (hp.mem_iff.mpr h1) (hp.mem_iff.mpr h2)
  object := fun o => by simp only [hc.object o, hp.mem_iff]

theorem Handle.owns_of_none (hp : p.ptr = none) (c : ℕ) : p.owns c = false := by simp [owns, hp]

theorem Handle.owns_mk (o c c' : ℕ) : Handle.owns c' ⟨some o, some c⟩ = decide (c = c') := by simp [owns]

theorem Handle.owns_iff : p.owns c = true ↔ ∃ o, p = ⟨some o, some c⟩ := by
  obtain ⟨ptr, sharedCount⟩ := p
  cases ptr with
  | none => simp [owns]
  | some o => simp [owns]

theorem counted_cons_null (hp : p.ptr = none) : Counted (p :: owners) h ↔ Counted owners h := by
  have hcount : ∀ c, (p :: owners).countP (·.owns c) = owners.countP (·.owns c) := fun c =>
    List.countP_cons_of_neg (by simp [Handle.owns_of_none hp])
  have hmem : ∀ q : Handle, q.ptr ≠ none → (q ∈ p :: owners ↔ q ∈ owners) := by
    intro q hq
    rw [List.mem_cons, or_iff_right]
    rintro rfl
    exact hq hp
  constructor
  · intro hc
    refine ⟨fun q hq => hc.held q (List.mem_cons_of_mem p hq), fun c => by rw [hc.count c, hcount],
      fun o o' c c' h1 h2 => hc.pair o o' c c' (List.mem_cons_of_mem p h1) (List.mem_cons_of_mem p h2), fun o => ?_⟩
    rw [hc.object o]
    constructor
    · rintro ⟨q, hq, hqo⟩
      exact ⟨q, (hmem q (by simp [hqo])).mp hq, hqo⟩
    · rintro ⟨q, hq, hqo⟩
      exact ⟨q, List.mem_cons_of_mem p hq, hqo⟩
  · intro hc
    refine ⟨fun q hq o hqo => hc.held q ((hmem q (by simp [hqo])).mp hq) o hqo, fun c => by rw [hc.count c, hcount],
      fun o o' c c' h1 h2 => hc.pair o o' c c' ((hmem _ (by simp)).mp h1) ((hmem _ (by simp)).mp h2), fun o => ?_⟩
    rw [hc.object o]
    constructor
    · rintro ⟨q, hq, hqo⟩
      exact ⟨q, List.mem_cons_of_mem p hq, hqo⟩
    · rintro ⟨q, hq, hqo⟩
      exact ⟨q, (hmem q (by simp [hqo])).mp hq, hqo⟩

theorem Counted.getCount (hc : Counted owners h) (hq : ⟨some o, some c⟩ ∈ owners) :
    h.getCount (some c) = .ok (c, (owners.countP (·.owns c) : ℤ)) ∧ 0 < owners.countP (·.owns c) := by
  have hpos : 0 < owners.countP (·.owns c) := List.countP_pos_iff.mpr ⟨_, hq, by simp [Handle.owns_mk]⟩
  refine ⟨?_, hpos⟩
  rw [Heap.getCount, hc.count c, if_neg (Nat.ne_of_gt hpos)]

theorem Counted.share (hc : Counted owners h) (hq : q ∈ owners) {ptr : Option ℕ} (hptr : ptr = q.ptr ∨ ptr = none) :
    ∃ p h', h.share q ptr = .ok (p, h') ∧ Counted (p :: owners) h' ∧ p.ptr = ptr := by
  cases ptr with
  | none => exact ⟨_, _, rfl, (counted_cons_null rfl).mpr hc, rfl⟩
  | some o =>
    obtain hptr | hptr := hptr
    swap
    · cases hptr
    obtain ⟨c, hcount⟩ := hc.held q hq o hptr.symm
    obtain rfl : q = ⟨some o, some c⟩ := by
      obtain ⟨ptr, sharedCount⟩ := q
      simp_all
    obtain ⟨hget, hpos⟩ := hc.getCount hq
    refine ⟨_, _, by rw [Heap.share, Heap.addCount, hget]; rfl, ⟨?_, ?_, ?_, ?_⟩, rfl⟩
    · intro p hp o' hpo
      obtain rfl | hp := List.mem_cons.mp hp
      · exact ⟨c, rfl⟩
      · exact hc.held p hp o' hpo
    · intro c'
      dsimp only
      rw [List.countP_cons, Handle.owns_mk]
      by_cases hcc : c' = c
      · subst hcc
        simp
      · rw [Function.update_of_ne hcc, hc.count c']
        simp [Ne.symm hcc]
    · intro o₁ o₂ c₁ c₂ h1 h2
      have h1' : ⟨some o₁, some c₁⟩ ∈ owners := by
        obtain heq | h1 := List.mem_cons.mp h1
        · rwa [heq]
        · exact h1
      have h2' : ⟨some o₂, some c₂⟩ ∈ owners := by
        obtain heq | h2 := List.mem_cons.mp h2
        · rwa [heq]
        · exact h2
      exact hc.pair o₁ o₂ c₁ c₂ h1' h2'
    · intro o'
      rw [hc.object o']
      constructor
      · rintro ⟨p, hp, hpo⟩
        exact ⟨p, List.mem_cons_of_mem _ hp, hpo⟩
      · rintro ⟨p, hp, hpo⟩
        obtain rfl | hp := List.mem_cons.mp hp
        · exact ⟨_, hq, hpo⟩
        · exact ⟨p, hp, hpo⟩

theorem Counted.destroy (hc : Counted (p :: owners) h) : ∃ h', h.destroy p = .ok h' ∧ Counted owners h' := by
  obtain ⟨ptr, sharedCount⟩ := p
  cases ptr with
  | none => exact ⟨h, rfl, (counted_cons_null rfl).mp hc⟩
  | some o =>
    obtain ⟨c, rfl⟩ : ∃ c, sharedCount = some c := hc.held _ List.mem_cons_self o rfl
    obtain ⟨hget, -⟩ := hc.getCount List.mem_cons_self
    have hself : ∀ c', (⟨some o, some c⟩ :: owners : List Handle).countP (·.owns c') =
        owners.countP (·.owns c') + if c = c' then 1 else 0 := by
      intro c'
      rw [List.countP_cons, Handle.owns_mk]
      simp
    have hheld : ∀ q ∈ owners, ∀ o', q.ptr = some o' → ∃ c', q.sharedCount = some c' := fun q hq =>
      hc.held q (List.mem_cons_of_mem _ hq)
    have hpair : ∀ o₁ o₂ c₁ c₂, ⟨some o₁, some c₁⟩ ∈ owners → ⟨some o₂, some c₂⟩ ∈ owners → (o₁ = o₂ ↔ c₁ = c₂) :=
      fun o₁ o₂ c₁ c₂ h1 h2 => hc.pair o₁ o₂ c₁ c₂ (List.mem_cons_of_mem _ h1) (List.mem_cons_of_mem _ h2)
    have hobject : h.object o = true := (hc.object o).mpr ⟨_, List.mem_cons_self, rfl⟩
    -- who has the same object has the same count, and the other way round
    have hshared : (∃ q ∈ owners, q.ptr = some o) ↔ 0 < owners.countP (·.owns c) := by
      rw [List.countP_pos_iff]
      constructor
      · rintro ⟨⟨_, sharedCount⟩, hq, rfl⟩
        obtain ⟨c', rfl⟩ : ∃ c', sharedCount = some c' := hheld _ hq o rfl
        obtain rfl := (hc.pair o o c' c (List.mem_cons_of_mem _ hq) List.mem_cons_self).mp rfl
        exact ⟨_, hq, by simp [Handle.owns_mk]⟩
      · rintro ⟨q, hq, howns⟩
        obtain ⟨o', rfl⟩ := Handle.owns_iff.mp howns
        obtain rfl := (hc.pair o' o c c (List.mem_cons_of_mem _ hq) List.mem_cons_self).mpr rfl
        exact ⟨_, hq, rfl⟩
    have hreduce : h.reduceCount (some c) = .ok (c, (owners.countP (·.owns c) : ℤ),
        { h with count := Function.update h.count c (some (owners.countP (·.owns c) : ℤ)) }) := by
      rw [Heap.reduceCount, hget, ok_bind, hself c]
      simp
    rw [Heap.destroy]
    dsimp only
    rw [hreduce, ok_bind]
    by_cases hzero : owners.countP (·.owns c) = 0
    · rw [hzero, Int.natCast_zero, if_pos rfl, Heap.delete, if_pos hobject]
      refine ⟨_, rfl, hheld, fun c' => ?_, hpair, fun o' => ?_⟩
      · dsimp only
        by_cases hcc : c' = c
        · subst hcc
          rw [Function.update_self, hzero, if_pos rfl]
        · rw [Function.update_of_ne hcc, Function.update_of_ne hcc, hc.count c', hself c', if_neg (Ne.symm hcc)]
          rfl
      · dsimp only
        by_cases hoo : o' = o
        · subst hoo
          rw [Function.update_self, hshared, hzero]
          simp
        · rw [Function.update_of_ne hoo, hc.object o']
          simp [Ne.symm hoo]
    · dsimp only
      rw [if_neg (by exact_mod_cast hzero)]
      refine ⟨_, rfl, hheld, fun c' => ?_, hpair, fun o' => ?_⟩
      · dsimp only
        by_cases hcc : c' = c
        · subst hcc
          rw [Function.update_self, if_neg hzero]
        · rw [Function.update_of_ne hcc, hc.count c', hself c', if_neg (Ne.symm hcc)]
          rfl
      · by_cases hoo : o' = o
        · subst hoo
          rw [hobject, hshared]
          simpa using Nat.pos_of_ne_zero hzero
        · rw [hc.object o']
          simp [Ne.symm hoo]

theorem Counted.construct (hc : Counted owners h) (ho : h.object o = false) (hcount : h.count c = none) :
    Counted (⟨some o, some c⟩ :: owners) ⟨Function.update h.object o true, Function.update h.count c (some 1)⟩ := by
  have hzero : owners.countP (·.owns c) = 0 := by
    by_contra hne
    rw [hc.count c, if_neg hne] at hcount
    cases hcount
  have hfresh : ∀ o' c', ⟨some o', some c'⟩ ∈ owners → o' ≠ o ∧ c' ≠ c := by
    intro o' c' hmem
    constructor
    · rintro rfl
      rw [(hc.object o').mpr ⟨_, hmem, rfl⟩] at ho
      cases ho
    · rintro rfl
      exact Nat.ne_of_gt (List.countP_pos_iff.mpr ⟨_, hmem, by simp [Handle.owns_mk]⟩) hzero
  refine ⟨fun q hq o' hqo => ?_, fun c' => ?_, fun o₁ o₂ c₁ c₂ h1 h2 => ?_, fun o' => ?_⟩
  · obtain rfl | hq := List.mem_cons.mp hq
    · exact ⟨c, rfl⟩
    · exact hc.held q hq o' hqo
  · dsimp only
    rw [List.countP_cons, Handle.owns_mk]
    by_cases hcc : c' = c
    · subst hcc
      simp [hzero]
    · rw [Function.update_of_ne hcc, hc.count c']
      simp [Ne.symm hcc]
  · obtain heq1 | h1 := List.mem_cons.mp h1 <;> obtain heq2 | h2 := List.mem_cons.mp h2
    · simp_all
    · obtain ⟨hno, hnc⟩ := hfresh o₂ c₂ h2
      simp only [Handle.mk.injEq, Option.some.injEq] at heq1
      rw [heq1.1, heq1.2]
      exact iff_of_false hno.symm hnc.symm
    · obtain ⟨hno, hnc⟩ := hfresh o₁ c₁ h1
      simp only [Handle.mk.injEq, Option.some.injEq] at heq2
      rw [heq2.1, heq2.2]
      exact iff_of_false hno hnc
    · exact hc.pair o₁ o₂ c₁ c₂ h1 h2
  · dsimp only
    by_cases hoo : o' = o
    · subst hoo
      simp
    · rw [Function.update_of_ne hoo, hc.object o']
      simp [Ne.symm hoo]

section Variables

variable {s : State}

def State.handles (s : State) : List Handle := s.vars.map Prod.snd

structure Sound (s : State) : Prop where
  names : (s.vars.map Prod.fst).Nodup
  counted : Counted s.handles s.heap

/-- A variable is declared once, what is new is at addresses that are free, and who shares a count
shares the object, if any. -/
def Allowed (s : State) : Op → Prop
  | .construct v new => v ∉ s.vars.map Prod.fst ∧
    ∀ o c, new = some (o, c) → s.heap.object o = false ∧ s.heap.count c = none
  | .share v w ptr => v ∉ s.vars.map Prod.fst ∧ ∀ q, s.get w = some q → ptr = q.ptr ∨ ptr = none
  | .copy v _ | .move v _ | .cast v _ _ => v ∉ s.vars.map Prod.fst
  | .assign _ _ | .swap _ _ | .destroy _ => True

theorem get_perm (hnames : (s.vars.map Prod.fst).Nodup) (hv : s.get v = some p) :
    s.vars.Perm ((v, p) :: s.vars.filter (·.1 ≠ v)) ∧
      ∀ p', (s.put v p').vars.Perm ((v, p') :: s.vars.filter (·.1 ≠ v)) := by
  obtain ⟨vars, heap⟩ := s
  simp only [State.get, State.put] at hv hnames ⊢
  induction vars with
  | nil => simp at hv
  | cons x vars ih =>
    rw [List.map_cons, List.nodup_cons] at hnames
    by_cases hx : x.1 = v
    · obtain rfl : x = (v, p) := Prod.ext hx (by simpa [hx] using hv)
      have hrest : ∀ y ∈ vars, y.1 ≠ v := by
        intro y hy heq
        exact hnames.1 (List.mem_map.mpr ⟨y, hy, heq⟩)
      have hfilter : ((v, p) :: vars).filter (fun x => decide (x.1 ≠ v)) = vars := by
        rw [List.filter_cons_of_neg (by simp), List.filter_eq_self]
        simpa using hrest
      rw [hfilter]
      refine ⟨List.Perm.refl _, fun p' => ?_⟩
      have hsame : vars.map (fun x => if x.1 = v then (v, p') else x) = vars :=
        (List.map_congr_left fun y hy => if_neg (hrest y hy)).trans (List.map_id' vars)
      rw [List.map_cons, if_pos rfl, hsame]
    · have hfilter : (x :: vars).filter (fun x => decide (x.1 ≠ v)) = x :: vars.filter (fun x => decide (x.1 ≠ v)) :=
        List.filter_cons_of_pos (by simpa using hx)
      rw [List.find?_cons_of_neg (by simpa using hx)] at hv
      obtain ⟨h1, h2⟩ := ih hnames.2 hv
      rw [hfilter]
      refine ⟨(h1.cons x).trans (List.Perm.swap _ _ _), fun p' => ?_⟩
      rw [List.map_cons, if_neg hx]
      exact ((h2 p').cons x).trans (List.Perm.swap _ _ _)

theorem put_names (s : State) (v : ℕ) (p : Handle) : (s.put v p).vars.map Prod.fst = s.vars.map Prod.fst := by
  rw [State.put, List.map_map]
  refine List.map_congr_left fun x _ => ?_
  by_cases hx : x.1 = v
  · simp [hx]
  · simp [hx]

theorem get_put {w : ℕ} (hw : s.get w = some q) : (s.put v q).get w = some q := by
  obtain ⟨x, hx, rfl⟩ := Option.map_eq_some_iff.mp hw
  have hkey : ((fun y : ℕ × Handle => decide (y.1 = w)) ∘ fun y => if y.1 = v then (v, x.2) else y) =
      fun y => decide (y.1 = w) := by
    funext y
    by_cases hy : y.1 = v
    · simp [hy]
    · simp [hy]
  rw [State.get, State.put, List.find?_map, hkey, hx]
  by_cases hv : x.1 = v
  · simp [hv]
  · simp [hv]

theorem mem_handles (hv : s.get v = some p) : p ∈ s.handles := by
  obtain ⟨x, hx, rfl⟩ := Option.map_eq_some_iff.mp hv
  exact List.mem_map_of_mem (f := Prod.snd) (List.mem_of_find?_eq_some hx)

theorem exists_mem_handles {P : Handle → Prop} : (∃ p ∈ s.handles, P p) ↔ ∃ x ∈ s.vars, P x.2 := by
  constructor
  · rintro ⟨p, hp, hP⟩
    obtain ⟨x, hx, rfl⟩ := List.mem_map.mp hp
    exact ⟨x, hx, hP⟩
  · rintro ⟨x, hx, hP⟩
    exact ⟨x.2, List.mem_map_of_mem (f := Prod.snd) hx, hP⟩

theorem Sound.declare (hs : Sound s) (hv : v ∉ s.vars.map Prod.fst) (hc : Counted (p :: s.handles) h) :
    Sound (s.declare v p h) :=
  ⟨List.nodup_cons.mpr ⟨hv, hs.names⟩, hc⟩

/-- The others, and the variable with another value. -/
theorem get_handles (hnames : (s.vars.map Prod.fst).Nodup) (hv : s.get v = some p) :
    ∃ others, s.handles.Perm (p :: others) ∧ (∀ p', (s.put v p').handles.Perm (p' :: others)) ∧
      others = (s.vars.filter (·.1 ≠ v)).map Prod.snd := by
  obtain ⟨h1, h2⟩ := get_perm hnames hv
  exact ⟨_, h1.map Prod.snd, fun p' => (h2 p').map Prod.snd, rfl⟩

theorem Sound.share (hs : Sound s) {w : ℕ} {ptr : Handle → Option ℕ} (hv : v ∉ s.vars.map Prod.fst)
    (hptr : ∀ q, s.get w = some q → ptr q = q.ptr ∨ ptr q = none) : ∃ t, s.share v w ptr = .ok t ∧ Sound t := by
  rw [State.share]
  cases hw : s.get w with
  | none => exact ⟨s, rfl, hs⟩
  | some q =>
    obtain ⟨p, h, hshare, hc, -⟩ := hs.counted.share (mem_handles hw) (hptr q hw)
    refine ⟨_, ?_, hs.declare hv hc⟩
    dsimp only
    rw [hshare, ok_bind]

theorem Sound.move (hs : Sound s) {w : ℕ} (hv : v ∉ s.vars.map Prod.fst) :
    ∃ t, s.step (.move v w) = .ok t ∧ Sound t := by
  rw [State.step]
  cases hw : s.get w with
  | none => exact ⟨s, rfl, hs⟩
  | some q =>
    obtain ⟨others, h1, h2, -⟩ := get_handles hs.names hw
    refine ⟨_, rfl, List.nodup_cons.mpr ⟨?_, ?_⟩, ?_⟩
    · rw [put_names]
      exact hv
    · rw [put_names]
      exact hs.names
    · refine Counted.perm ?_ ((h2 (moveFrom q).2).symm.cons (moveFrom q).1)
      have hq := hs.counted.perm h1
      obtain ⟨ptr, sharedCount⟩ := q
      cases ptr with
      | none => exact (counted_cons_null rfl).mpr hq
      | some o => exact ((counted_cons_null rfl).mpr hq).perm (List.Perm.swap _ _ _)

theorem Sound.assign (hs : Sound s) (v w : ℕ) : ∃ t, s.step (.assign v w) = .ok t ∧ Sound t := by
  rw [State.step]
  cases hv : s.get v with
  | none => exact ⟨s, rfl, hs⟩
  | some p =>
    cases hw : s.get w with
    | none => exact ⟨s, rfl, hs⟩
    | some q =>
      obtain ⟨others, h1, h2, -⟩ := get_handles hs.names hv
      obtain ⟨rhs, h, hshare, hc, -⟩ := hs.counted.share (mem_handles hw) (.inl rfl)
      obtain ⟨h', hdestroy, hc'⟩ := (hc.perm ((h1.cons rhs).trans (List.Perm.swap _ _ _))).destroy
      refine ⟨{ s.put v rhs with heap := h' }, ?_, ?_, hc'.perm (h2 rhs).symm⟩
      · dsimp only
        rw [Heap.copy, hshare, ok_bind]
        dsimp only
        rw [hdestroy, ok_bind]
      · show ((s.put v rhs).vars.map Prod.fst).Nodup
        rw [put_names]
        exact hs.names

theorem Sound.swap (hs : Sound s) (v w : ℕ) : ∃ t, s.step (.swap v w) = .ok t ∧ Sound t := by
  rw [State.step]
  cases hv : s.get v with
  | none => exact ⟨s, rfl, hs⟩
  | some p =>
    cases hw : s.get w with
    | none => exact ⟨s, rfl, hs⟩
    | some q =>
      have hnames : ((s.put v q).vars.map Prod.fst).Nodup := put_names s v q ▸ hs.names
      obtain ⟨others, h1, h2, -⟩ := get_handles hs.names hv
      obtain ⟨others', h3, h4, -⟩ := get_handles hnames (get_put hw)
      have hothers : others.Perm others' := ((h2 q).symm.trans h3).cons_inv
      refine ⟨_, rfl, ?_, ?_⟩
      · rw [put_names]
        exact hnames
      · exact hs.counted.perm (h1.trans ((hothers.cons p).trans (h4 p).symm))

theorem Sound.destroy (hs : Sound s) (v : ℕ) : ∃ t, s.step (.destroy v) = .ok t ∧ Sound t := by
  rw [State.step]
  cases hv : s.get v with
  | none => exact ⟨s, rfl, hs⟩
  | some p =>
    obtain ⟨others, h1, -, hothers⟩ := get_handles hs.names hv
    obtain ⟨h, hdestroy, hc⟩ := (hs.counted.perm h1).destroy
    rw [hothers] at hc
    refine ⟨{ vars := s.vars.filter (·.1 ≠ v), heap := h }, ?_, ?_, hc⟩
    · dsimp only
      rw [hdestroy, ok_bind]
    · exact hs.names.sublist (List.filter_sublist.map Prod.fst)

theorem step_sound (hs : Sound s) {op : Op} (hop : Allowed s op) : ∃ t, s.step op = .ok t ∧ Sound t := by
  cases op with
  | construct v new =>
    cases new with
    | none => exact ⟨_, rfl, hs.declare hop.1 ((counted_cons_null rfl).mpr hs.counted)⟩
    | some x =>
      obtain ⟨o, c⟩ := x
      obtain ⟨ho, hcount⟩ := hop.2 o c rfl
      exact ⟨_, rfl, hs.declare hop.1 (hs.counted.construct ho hcount)⟩
  | copy v w => exact hs.share hop fun q _ => .inl rfl
  | move v w => exact hs.move hop
  | share v w ptr => exact hs.share hop.1 hop.2
  | cast v w succeeds =>
    refine hs.share hop fun q _ => ?_
    cases succeeds with
    | true => exact .inl rfl
    | false => exact .inr rfl
  | assign v w => exact hs.assign v w
  | swap v w => exact hs.swap v w
  | destroy v => exact hs.destroy v

/-- The pointers to an object are those that share its count. -/
theorem Sound.countP_owns (hs : Sound s) (hmem : ⟨some o, some c⟩ ∈ s.handles) :
    s.handles.countP (·.owns c) = s.vars.countP fun y => y.2.ptr = some o := by
  rw [State.handles, List.countP_map]
  refine List.countP_congr fun y hy => ?_
  have hy' : y.2 ∈ s.handles := List.mem_map_of_mem (f := Prod.snd) hy
  rw [Function.comp_apply, Handle.owns_iff, decide_eq_true_eq]
  constructor
  · rintro ⟨o', heq⟩
    rw [heq] at hy' ⊢
    rw [(hs.counted.pair o' o c c hy' hmem).mpr rfl]
  · intro hptr
    obtain ⟨c', hc'⟩ := hs.counted.held y.2 hy' o hptr
    have heq : y.2 = ⟨some o, some c'⟩ := by rw [← hptr, ← hc']
    rw [heq] at hy' ⊢
    exact ⟨o, by rw [(hs.counted.pair o o c' c hy' hmem).mp rfl]⟩

end Variables

/-- Whatever is done with the pointers, no count is read before it is set or after it is gone, and no
object is deleted twice. An object is there as long as a pointer has it, and its count as long
as that; `use_count` is the number of pointers to the object. -/
theorem last_owner_deletes (ops : List Op) (hops : Along State.step Allowed {} ops) :
    ∃ s, runAll State.step {} ops = .ok s ∧
      (∀ o, s.heap.object o = true ↔ ∃ x ∈ s.vars, x.2.ptr = some o) ∧
      (∀ c, s.heap.count c ≠ none ↔ ∃ x ∈ s.vars, x.2.ptr ≠ none ∧ x.2.sharedCount = some c) ∧
      ∀ x ∈ s.vars, s.heap.useCount x.2 =
        .ok (if x.2.ptr = none then 0 else (s.vars.countP fun y => y.2.ptr = x.2.ptr : ℕ)) := by
  have hempty : Sound {} :=
    ⟨List.nodup_nil, by simp [State.handles], by simp [State.handles], by simp [State.handles], by simp [State.handles]⟩
  obtain ⟨s, hs, h⟩ := hops.runAll_ok (fun _ _ h hop => step_sound h hop) hempty
  refine ⟨s, hs, fun o => ?_, fun c => ?_, fun x hx => ?_⟩
  · rw [h.counted.object o, exists_mem_handles]
  · refine Iff.trans ?_ (exists_mem_handles (P := fun p => p.ptr ≠ none ∧ p.sharedCount = some c))
    rw [h.counted.count c]
    by_cases hzero : s.handles.countP (·.owns c) = 0
    · rw [if_pos hzero]
      rw [List.countP_eq_zero] at hzero
      refine iff_of_false (fun hne => hne rfl) ?_
      rintro ⟨p, hp, hptr, hcount⟩
      exact hzero p hp (by simpa [Handle.owns, hcount] using Option.ne_none_iff_isSome.mp hptr)
    · rw [if_neg hzero]
      obtain ⟨p, hp, howns⟩ := List.countP_pos_iff.mp (Nat.pos_of_ne_zero hzero)
      obtain ⟨o, rfl⟩ := Handle.owns_iff.mp howns
      exact iff_of_true nofun ⟨_, hp, nofun, rfl⟩
  · obtain ⟨v, ptr, sharedCount⟩ := x
    have hmem : ⟨ptr, sharedCount⟩ ∈ s.handles := List.mem_map_of_mem (f := Prod.snd) hx
    cases ptr with
    | none => rfl
    | some o =>
      obtain ⟨c, rfl⟩ : ∃ c, sharedCount = some c := h.counted.held _ hmem o rfl
      obtain ⟨hget, -⟩ := h.counted.getCount hmem
      rw [Heap.useCount]
      dsimp only
      rw [hget, ok_bind, h.countP_owns hmem]
      rfl

theorem last_owner_deletes_moved :
    ∃ s, runAll State.step {} [.construct 0 (some (5, 6)), .copy 1 0, .move 2 0, .share 3 2 none, .assign 1 3,
      .assign 2 2, .swap 1 2, .destroy 0, .destroy 1] = .ok s ∧ s.heap.object 5 = false ∧ s.heap.count 6 = none := by
  have hops : Along State.step Allowed {} [.construct 0 (some (5, 6)), .copy 1 0, .move 2 0, .share 3 2 none,
      .assign 1 3, .assign 2 2, .swap 1 2, .destroy 0, .destroy 1] := by
    refine (along_cons rfl).mpr ⟨⟨by decide, ?_⟩, ?_⟩
    · rintro o c ⟨⟩
      exact ⟨rfl, rfl⟩
    refine (along_cons rfl).mpr ⟨?_, (along_cons rfl).mpr ⟨?_, (along_cons rfl).mpr ⟨?_, ?_⟩⟩⟩
    · exact (by decide : 1 ∉ [0])
    · exact (by decide : 2 ∉ [1, 0])
    · exact ⟨(by decide : 3 ∉ [2, 1, 0]), fun q _ => .inr rfl⟩
    refine (along_cons rfl).mpr ⟨trivial, (along_cons rfl).mpr ⟨trivial, (along_cons rfl).mpr ⟨trivial, ?_⟩⟩⟩
    exact (along_cons rfl).mpr ⟨trivial, (along_cons rfl).mpr ⟨trivial, along_nil⟩⟩
  obtain ⟨s, hs, -, -, -⟩ := last_owner_deletes _ hops
  cases hs
  exact ⟨_, rfl, rfl, rfl⟩

/-- Two counts for one object, and one count for two objects: in both runs an object is deleted that
is gone already. -/
example : runAll State.step {} [.construct 0 (some (5, 6)), .construct 1 (some (5, 7)), .destroy 0, .destroy 1] =
      .error .dangling ∧
    runAll State.step {} [.construct 0 (some (5, 6)), .construct 1 (some (8, 9)), .share 2 0 (some 8), .destroy 0,
      .destroy 1, .destroy 2] = .error .dangling :=
  ⟨rfl, rfl⟩

end CppBase.SmartPtr
