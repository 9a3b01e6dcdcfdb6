import CppBase.Proofs.SplitJoin

/-! `splitLine` leaves the lines: the runs of characters that are not CR or LF, behind
an empty one where the string starts with CR or LF. -/

namespace CppBase.Utility.StrUtil

open CppBase.Lib

def isNewline (c : UInt8) : Bool := newlines.contains c

/-- The maximal non-empty runs of characters other than CR and LF, in order. -/
def runs (s : List UInt8) : List (List UInt8) := (s.splitOnP isNewline).filter fun p => !p.isEmpty

/-- The lines as `splitLine` counts them. -/
def lines (s : List UInt8) : List (List UInt8) := (if s.head?.any isNewline then [[]] else []) ++ runs s

variable {c : UInt8} {u s t : List UInt8}

section Runs

theorem runs_newline (hc : isNewline c = true) : runs (c :: s) = runs s := by
  simp [runs, List.splitOnP_cons_eq_if_modifyHead, hc]

/-- Newlines before a run do not count. -/
theorem runs_append_newlines (hu : ∀ c ∈ u, isNewline c = true) : runs (u ++ s) = runs s := by
  induction u with
  | nil => rfl
  | cons c u ih =>
    rw [List.cons_append, runs_newline (hu c List.mem_cons_self)]
    exact ih fun b hb => hu b (List.mem_cons_of_mem c hb)

theorem lines_eq_runs (hs : s.head?.any isNewline = false) : lines s = runs s := by
  simp [lines, hs]

theorem lines_last (hu : ∀ c ∈ u, isNewline c = false) (hne : u ≠ []) : lines u = [u] := by
  obtain ⟨c, t, rfl⟩ := List.exists_cons_of_ne_nil hne
  have hc : isNewline c = false := hu c List.mem_cons_self
  simp [lines, runs, List.splitOnP_eq_singleton hu, hc]

theorem lines_cut (hu : ∀ c ∈ u, isNewline c = false) (hc : isNewline c = true) :
    lines (u ++ c :: s) = u :: runs s := by
  have hsplit := List.splitOnP_append_cons_of_forall_mem hu c hc s
  cases u with
  | nil => simp [lines, runs_newline hc, hc]
  | cons b u =>
    have hb : isNewline b = false := hu b List.mem_cons_self
    rw [lines_eq_runs (by simp [hb]), runs, hsplit]
    rfl

theorem splitOnP_no_newline {p : List UInt8} (hp : p ∈ s.splitOnP isNewline) : ∀ c ∈ p, isNewline c = false := by
  induction s generalizing p with
  | nil =>
    rw [List.splitOnP_nil, List.mem_singleton] at hp
    simp [hp]
  | cons b s ih =>
    rw [List.splitOnP_cons_eq_if_modifyHead] at hp
    obtain ⟨q, qs, hq⟩ := List.exists_cons_of_ne_nil (List.splitOnP_ne_nil isNewline s)
    rw [hq] at hp ih
    by_cases hb : isNewline b = true
    · rw [if_pos hb] at hp
      obtain rfl | hp := List.mem_cons.mp hp
      · simp
      · exact ih hp
    · rw [if_neg hb, List.modifyHead_cons] at hp
      obtain rfl | hp := List.mem_cons.mp hp
      · exact List.forall_mem_cons.mpr ⟨Bool.eq_false_iff.mpr hb, ih List.mem_cons_self⟩
      · exact ih (List.mem_cons_of_mem q hp)

theorem lines_no_newline {p : List UInt8} (hp : p ∈ lines s) : ∀ c ∈ p, isNewline c = false := by
  obtain hp | hp := List.mem_append.mp hp
  · have : p = [] := by
      split_ifs at hp
      · exact List.mem_singleton.mp hp
      · cases hp
    simp [this]
  · exact splitOnP_no_newline (List.mem_filter.mp hp).1

theorem lines_tail_ne_nil {p : List UInt8} (hp : p ∈ (lines s).tail) : p ≠ [] := by
  have hruns : p ∈ runs s := by
    unfold lines at hp
    split_ifs at hp
    · exact hp
    · exact List.mem_of_mem_tail hp
  simpa using (List.mem_filter.mp hruns).2

theorem head_nil_iff : (lines s).head? = some [] ↔ s.head?.any isNewline = true := by
  constructor
  · intro h
    by_contra hs
    rw [lines_eq_runs (Bool.eq_false_iff.mpr hs)] at h
    have := (List.mem_filter.mp (List.mem_of_mem_head? h)).2
    simp at this
  · intro hs
    simp [lines, hs]

end Runs

section Searches

variable {q : UInt8 → Bool} {pos i : ℕ}

theorem mem_take_drop {b : UInt8} {k : ℕ} (h : b ∈ (s.drop pos).take k) :
    ∃ j < k, pos + j < s.length ∧ s.getD (pos + j) 0 = b := by
  obtain ⟨j, hj, rfl⟩ := List.mem_iff_getElem.mp h
  rw [List.length_take, List.length_drop] at hj
  refine ⟨j, by omega, by omega, ?_⟩
  rw [List.getElem_take, List.getElem_drop, ← List.getElem_eq_getD]

/-- A search over the characters stops at the first with the property. -/
theorem firstFrom_char (h : firstFrom (fun i => q (s.getD i 0)) pos s.length = some i) :
    ∃ c, (∀ b ∈ substr s pos (i - pos), q b = false) ∧ q c = true ∧ s.drop i = c :: s.drop (i + 1) ∧
      s.drop pos = substr s pos (i - pos) ++ s.drop i ∧ pos ≤ i := by
  obtain ⟨hi, ⟨hpos, hlt⟩, hbefore⟩ := firstFrom_eq_some.mp h
  refine ⟨s.getD i 0, fun b hb => ?_, hi, ?_, ?_, hpos⟩
  · obtain ⟨j, hj, -, rfl⟩ := mem_take_drop hb
    exact hbefore (pos + j) (by omega) (by omega)
  · rw [List.drop_eq_getElem_cons hlt, List.getElem_eq_getD 0]
  · rw [substr, ← Nat.add_sub_cancel' hpos, ← List.drop_drop, Nat.add_sub_cancel_left, List.take_append_drop]

theorem firstFrom_no_char (h : firstFrom (fun i => q (s.getD i 0)) pos s.length = none) :
    ∀ b ∈ s.drop pos, q b = false := by
  intro b hb
  rw [← List.take_length (l := s.drop pos)] at hb
  obtain ⟨j, -, hj, rfl⟩ := mem_take_drop hb
  exact firstFrom_eq_none.mp h (pos + j) (Nat.le_add_right pos j) hj

end Searches

section Rounds

def linesFrom (s : List UInt8) (pos : Option ℕ) : List (List UInt8) := pos.elim [] fun p => lines (s.drop p)

/-- Where `find_first_not_of` goes on, the lines are the runs that are left. -/
theorem linesFrom_findFirstNotOf {i : ℕ} : linesFrom s (findFirstNotOf s newlines i) = runs (s.drop i) := by
  cases h : findFirstNotOf s newlines i with
  | none =>
    have hall := firstFrom_no_char (q := fun c => !isNewline c) h
    have := runs_append_newlines (u := s.drop i) (s := []) fun c hc => by simpa using hall c hc
    rw [List.append_nil] at this
    exact this.symm
  | some j =>
    obtain ⟨c, hu, hc, hdrop, hsplit, -⟩ := firstFrom_char (q := fun c => !isNewline c) h
    rw [hsplit, runs_append_newlines fun c hc => by simpa using hu c hc]
    refine lines_eq_runs ?_
    rw [hdrop]
    simpa using hc

/-- The next line starts behind the newline that ended this one. -/
theorem findFirstNotOf_gt {pos i j : ℕ} (h : findFirstOf s newlines pos = some i)
    (hnext : findFirstNotOf s newlines i = some j) : pos < j := by
  obtain ⟨hi, ⟨hpos, -⟩, -⟩ := firstFrom_eq_some.mp h
  obtain ⟨hj, ⟨hle, -⟩, -⟩ := firstFrom_eq_some.mp hnext
  have hne : i ≠ j := by
    rintro rfl
    rw [hi] at hj
    cases hj
  omega

/-- The rounds that can still come. -/
def roundsLeft (s : List UInt8) (v : Option ℕ × List (List UInt8)) : ℕ := v.1.elim 0 fun p => s.length + 1 - p

variable {v w : Option ℕ × List (List UInt8)} {r : List (List UInt8)}

theorem splitLineRound_goes (h : splitLineRound s v = .inl w) :
    v.2 ++ linesFrom s v.1 = w.2 ++ linesFrom s w.1 ∧ roundsLeft s w < roundsLeft s v := by
  obtain ⟨_ | pos, ret⟩ := v
  · cases h
  simp only [splitLineRound] at h
  split_ifs at h with hlt
  cases hfind : findFirstOf s newlines pos with
  | none => simp [hfind] at h
  | some i =>
    simp only [hfind] at h
    cases h
    obtain ⟨c, hu, hc, hdrop, hsplit, hle⟩ := firstFrom_char hfind
    refine ⟨?_, ?_⟩
    · rw [linesFrom_findFirstNotOf, hdrop, runs_newline hc, List.append_assoc, List.singleton_append]
      show ret ++ lines (s.drop pos) = _
      rw [hsplit, hdrop, lines_cut hu hc]
    · show roundsLeft s (findFirstNotOf s newlines i, _) < s.length + 1 - pos
      cases hnext : findFirstNotOf s newlines i with
      | none => exact Nat.sub_pos_of_lt (Nat.lt_succ_of_lt hlt)
      | some j =>
        have := findFirstNotOf_gt hfind hnext
        show s.length + 1 - j < s.length + 1 - pos
        omega

theorem splitLineRound_leaves (h : splitLineRound s v = .inr r) : r = v.2 ++ linesFrom s v.1 := by
  obtain ⟨_ | pos, ret⟩ := v
  · cases h
    exact (List.append_nil ret).symm
  simp only [splitLineRound] at h
  split_ifs at h with hlt
  · cases hfind : findFirstOf s newlines pos with
    | none =>
      simp only [hfind] at h
      cases h
      have hne : s.drop pos ≠ [] := by simpa using hlt
      exact congrArg (ret ++ ·) (lines_last (firstFrom_no_char hfind) hne).symm
    | some i => simp [hfind] at h
  · cases h
    show r = r ++ lines (s.drop pos)
    rw [List.drop_eq_nil_of_le (Nat.not_lt.mp hlt)]
    exact (List.append_nil r).symm

theorem splitLine_leaves_lines (s : List UInt8) (ret : List (List UInt8)) :
    ∃ n, ∀ rounds ≥ n, splitLine s ret rounds = some (lines s) := by
  obtain ⟨n, r, hloop, hr⟩ := loop_rule (I := fun _ => True) (roundsLeft s)
    (Q := fun v r => r = v.2 ++ linesFrom s v.1) (s := (some 0, []))
    (fun v w _ h => ⟨trivial, (splitLineRound_goes h).2, fun r hr => hr.trans (splitLineRound_goes h).1.symm⟩)
    (fun v r _ h => splitLineRound_leaves h) trivial
  subst hr
  exact ⟨n, fun _ => loop_mono hloop⟩

end Rounds

/-- `splitLine` leaves the lines, whatever `ret` held; none of them has a newline, and only
the first can be empty, where the string starts with a newline. -/
theorem splitLine_lines (s : List UInt8) (ret : List (List UInt8)) :
    (∃ n, ∀ rounds ≥ n, splitLine s ret rounds = some (lines s)) ∧
      (∀ p ∈ lines s, ∀ c ∈ p, c ≠ 13 ∧ c ≠ 10) ∧ ((lines s).head? = some [] ↔ s.head?.any isNewline = true) ∧
      ∀ p ∈ (lines s).tail, p ≠ [] := by
  refine ⟨splitLine_leaves_lines s ret, fun p hp c hc => ?_, head_nil_iff, fun p => lines_tail_ne_nil⟩
  simpa [isNewline, newlines] using lines_no_newline hp c hc

example : lines [13, 10, 97, 98, 10, 13, 99, 10] = [[], [97, 98], [99]] := by decide

end CppBase.Utility.StrUtil
