import CppBase.Lib.ExactCover
import CppBase.Spec.Sudoku
import Mathlib.Data.List.Nodup
import Mathlib.Data.List.Perm.Subperm
import Mathlib.Data.Set.Basic

/-! Covering a column of a matrix of links, and uncovering it. Where the nodes are, in which row
and under which header, does not change; covering takes the column out of the ring of headers and the
nodes of its rows out of the rings of the other columns. -/

namespace CppBase.Muduo.Sudoku

open CppBase.Lib

/-- Where the nodes of a matrix are. The rows are named by `ρ`. -/
structure Layout (ρ : Type) where
  root : ℕ
  cols : Set ℕ
  nodes : Set ℕ
  header : ℕ → ℕ
  row : ℕ → ρ
  others : ℕ → List ℕ
  root_notMem : root ∉ cols ∧ root ∉ nodes
  not_col : ∀ n ∈ nodes, n ∉ cols
  header_mem : ∀ n ∈ nodes, header n ∈ cols
  header_inj : ∀ m ∈ nodes, ∀ n ∈ nodes, row m = row n → header m = header n → m = n
  mem_others : ∀ n ∈ nodes, ∀ m, m ∈ others n ↔ m ≠ n ∧ m ∈ nodes ∧ row m = row n
  bound : ∀ n ∈ nodes, n < kMaxNodes
  col_bound : ∀ d ∈ cols, d < kMaxNodes

variable {ρ : Type} {M : Layout ρ} {C : List ℕ} {A : Set ρ} {L : ℕ → List ℕ} {s : Nodes} {c d j n : ℕ} {js : List ℕ}

def Layout.hits (M : Layout ρ) (r : ρ) (d : ℕ) : Prop := ∃ n ∈ M.nodes, M.row n = r ∧ M.header n = d

/-- A row is for a value in a cell, and its nodes are named after it. -/
structure Named (M : Layout (ℕ × ℕ)) (name : ℕ → ℕ) : Prop where
  bound : ∀ n ∈ M.nodes, (M.row n).1 < kCells
  cell : ∀ n ∈ M.nodes, name n < 100 → name n = (M.row n).1
  value : ∀ n ∈ M.nodes, 100 ≤ name n → name n % 10 = (M.row n).2
  some_cell : ∀ n ∈ M.nodes, ∃ k ∈ n :: M.others n, name k < 100
  some_value : ∀ n ∈ M.nodes, ∃ k ∈ n :: M.others n, 100 ≤ name k

/-- What no covering changes. -/
structure Placed (M : Layout ρ) (s : Nodes) : Prop where
  col : ∀ n ∈ M.nodes, s.col n = M.header n
  rows : ∀ n ∈ M.nodes, LinkRing s.right s.left n (M.others n)

structure Columns (M : Layout ρ) (L : ℕ → List ℕ) (s : Nodes) : Prop where
  ring : ∀ d ∈ M.cols, LinkRing s.down s.up d (L d)
  mem : ∀ d ∈ M.cols, ∀ n ∈ L d, n ∈ M.nodes ∧ M.header n = d

/-- The columns `C` are not covered, and `A` are the rows that are in all of theirs. A column that
is covered has the nodes that it had then. -/
structure Shows (M : Layout ρ) (C : List ℕ) (A : Set ρ) (L : ℕ → List ℕ) (s : Nodes) : Prop extends
    Placed M s, Columns M L s where
  headers : LinkRing s.right s.left M.root C
  cols : ∀ d ∈ C, d ∈ M.cols
  active : ∀ n ∈ M.nodes, M.header n ∈ C → (n ∈ L (M.header n) ↔ M.row n ∈ A)
  closed : ∀ n ∈ M.nodes, M.row n ∈ A → M.header n ∈ C

def without (L : ℕ → List ℕ) (js : List ℕ) (d : ℕ) : List ℕ := (L d).filter (· ∉ js)

theorem without_nil : without L [] = L := by
  funext d
  simp [without]

theorem without_cons : without (without L [j]) js = without L (j :: js) := by
  funext d
  simp [without, List.filter_filter, Bool.and_comm]

theorem length_lt_rounds {l : List ℕ} (hl : l.Nodup) (hbound : ∀ n ∈ l, n < kMaxNodes) : l.length < rounds := by
  have hsub : l ⊆ List.range kMaxNodes := fun n hn => List.mem_range.mpr (hbound n hn)
  have hlen := (hl.subperm hsub).length_le
  rw [List.length_range] at hlen
  exact Nat.lt_succ_of_le hlen

section Unlink

namespace Nodes

theorem unlink_up (s : Nodes) (j : ℕ) : (s.unlink j).up = Function.update s.up (s.down j) (s.up j) := rfl

/-- What is written to `up` first leaves `up j` as it is. -/
theorem unlink_down (s : Nodes) (j : ℕ) : (s.unlink j).down = Function.update s.down (s.up j) (s.down j) := by
  have hup : Function.update s.up (s.down j) (s.up j) j = s.up j := by
    by_cases hj : j = s.down j
    · rw [← hj, Function.update_self]
    · rw [Function.update_of_ne hj]
  simp only [unlink, hup]

def unlinkAll (s : Nodes) (js : List ℕ) : Nodes := js.foldl unlink s

theorem unlinkAll_cons (s : Nodes) (j : ℕ) (js : List ℕ) : s.unlinkAll (j :: js) = (s.unlink j).unlinkAll js := rfl

theorem unlinkAll_append (s : Nodes) (js ks : List ℕ) : s.unlinkAll (js ++ ks) = (s.unlinkAll js).unlinkAll ks :=
  List.foldl_append ..

/-- Nothing but the columns is changed. -/
theorem unlinkAll_rest (s : Nodes) (js : List ℕ) :
    (s.unlinkAll js).right = s.right ∧ (s.unlinkAll js).left = s.left ∧ (s.unlinkAll js).col = s.col ∧
      (s.unlinkAll js).name = s.name := by
  induction js generalizing s with
  | nil => exact ⟨rfl, rfl, rfl, rfl⟩
  | cons j js ih => exact ih (s.unlink j)

end Nodes

theorem Placed.unlinkAll (h : Placed M s) (js : List ℕ) : Placed M (s.unlinkAll js) := by
  obtain ⟨hright, hleft, hcol, -⟩ := s.unlinkAll_rest js
  exact ⟨by rw [hcol]; exact h.col, by rw [hright, hleft]; exact h.rows⟩

theorem Columns.separate (h : Columns M L s) {e : ℕ} (hd : d ∈ M.cols) (he : e ∈ M.cols) (hn : n ∈ d :: L d)
    (hn' : n ∈ e :: L e) : d = e := by
  rcases List.mem_cons.mp hn with rfl | hn
  · rcases List.mem_cons.mp hn' with rfl | hn'
    · rfl
    · exact absurd hd (M.not_col _ (h.mem e he _ hn').1)
  · rcases List.mem_cons.mp hn' with rfl | hn'
    · exact absurd he (M.not_col _ (h.mem d hd _ hn).1)
    · exact (h.mem d hd n hn).2.symm.trans (h.mem e he n hn').2

theorem Columns.unlink (h : Columns M L s) (hj : j ∈ M.nodes) (hin : j ∈ L (M.header j)) :
    Columns M (without L [j]) (s.unlink j) := by
  have hcol := M.header_mem j hj
  refine ⟨fun d hd => ?_, fun d hd n hn => h.mem d hd n (List.mem_of_mem_filter hn)⟩
  rw [Nodes.unlink_up, Nodes.unlink_down]
  by_cases heq : d = M.header j
  · subst heq
    have hring := (h.ring _ hcol).unlink hin
    simpa [without] using hring
  · have hsame : without L [j] d = L d := by
      refine List.filter_eq_self.mpr fun n hn => ?_
      have hne : n ≠ j := by
        rintro rfl
        exact heq (h.mem d hd n hn).2.symm
      simpa using hne
    rw [hsame]
    refine (h.ring d hd).congr fun a ha => ⟨?_, ?_⟩
    · rw [Function.update_of_ne]
      rintro rfl
      have hup := ((h.ring _ hcol).symm.around (List.mem_reverse.mpr hin)).1
      exact heq (h.separate hd hcol ha (by simpa using hup))
    · rw [Function.update_of_ne]
      rintro rfl
      exact heq (h.separate hd hcol ha ((h.ring _ hcol).around hin).1)

theorem Columns.unlinkAll (h : Columns M L s) (hjs : js.Nodup) (hin : ∀ j ∈ js, j ∈ M.nodes ∧ j ∈ L (M.header j)) :
    Columns M (without L js) (s.unlinkAll js) := by
  induction js generalizing s L with
  | nil => rwa [without_nil]
  | cons j js ih =>
    obtain ⟨hj, hjs⟩ := List.nodup_cons.mp hjs
    obtain ⟨hhead, htail⟩ := List.forall_mem_cons.mp hin
    rw [← without_cons, Nodes.unlinkAll_cons]
    refine ih (h.unlink hhead.1 hhead.2) hjs fun k hk => ⟨(htail k hk).1, ?_⟩
    refine List.mem_filter.mpr ⟨(htail k hk).2, ?_⟩
    have hne : k ≠ j := fun heq => hj (heq ▸ hk)
    simpa using hne

theorem relink_unlink (h : Columns M L s) (hj : j ∈ M.nodes) (hin : j ∈ L (M.header j)) :
    (s.unlink j).relink j = s := by
  have hring := h.ring _ (M.header_mem j hj)
  obtain ⟨-, hdown, hupdown⟩ := hring.around hin
  obtain ⟨-, hup, hdownup⟩ := hring.symm.around (List.mem_reverse.mpr hin)
  have hdownj : (s.unlink j).down j = s.down j := by rw [Nodes.unlink_down, Function.update_of_ne hup.symm]
  ext1
  · rfl
  · rfl
  · simp only [Nodes.relink, hdownj]
    rw [Nodes.unlink_up, Function.update_idem]
    exact Function.update_eq_self_iff.mpr hupdown.symm
  · have hupj : Function.update (s.unlink j).up (s.down j) j j = s.up j := by
      rw [Function.update_of_ne hdown.symm, Nodes.unlink_up, Function.update_of_ne hdown.symm]
    simp only [Nodes.relink, hdownj, hupj]
    rw [Nodes.unlink_down, Function.update_idem]
    exact Function.update_eq_self_iff.mpr hdownup.symm
  · rfl
  · rfl
  · simp [Nodes.relink, Nodes.unlink]

end Unlink

section Rows

theorem Placed.length_others (h : Placed M s) (hn : n ∈ M.nodes) : (M.others n).length < rounds := by
  refine length_lt_rounds (List.nodup_cons.mp (h.rows n hn).nodup).2 fun m hm => M.bound m ?_
  exact ((M.mem_others n hn m).mp hm).2.1

theorem runAll_unlink (s : Nodes) (js : List ℕ) :
    runAll (fun s j => (.ok (Nodes.unlink s j) : Except Fault Nodes)) s js = .ok (s.unlinkAll js) :=
  runAll_eq_foldl fun _ _ _ => rfl

theorem Placed.row_ring (h : Placed M s) (hn : n ∈ M.nodes) (pre post : List ℕ) (u : Nodes)
    (_ : M.others n = pre ++ post)
    (hu : runAll (fun s j => (.ok (Nodes.unlink s j) : Except Fault Nodes)) s pre = .ok u) :
    LinkRing u.right u.left n (M.others n) := by
  obtain rfl : s.unlinkAll pre = u := by simpa [runAll_unlink] using hu
  exact (h.unlinkAll pre).rows n hn

theorem coverRow_eq (h : Placed M s) (hn : n ∈ M.nodes) : s.coverRow n = .ok (s.unlinkAll (M.others n)) := by
  rw [Nodes.coverRow, walk_ring (h.row_ring hn) (h.length_others hn), runAll_unlink]

/-- Each is still in its column when its turn comes. -/
theorem Columns.unlinkAll_split (h : Columns M L s) {pre post : List ℕ} (hjs : (pre ++ j :: post).Nodup)
    (hin : ∀ k ∈ pre ++ j :: post, k ∈ M.nodes ∧ k ∈ L (M.header k)) :
    Columns M (without L pre) (s.unlinkAll pre) ∧ j ∈ without L pre (M.header j) := by
  rw [List.nodup_append] at hjs
  obtain ⟨hpre, -, hdisj⟩ := hjs
  refine ⟨h.unlinkAll hpre fun k hk => hin k (List.mem_append_left _ hk), ?_⟩
  refine List.mem_filter.mpr ⟨(hin j (by simp)).2, ?_⟩
  have hnot : j ∉ pre := fun hj => hdisj j hj j List.mem_cons_self rfl
  simpa using hnot

theorem uncoverRow_eq (h : Placed M s) (hcols : Columns M L s) (hn : n ∈ M.nodes)
    (hin : ∀ k ∈ M.others n, k ∈ L (M.header k)) : (s.unlinkAll (M.others n)).uncoverRow n = .ok s := by
  have hnodup := (List.nodup_cons.mp (h.rows n hn).nodup).2
  have hnodes : ∀ k ∈ M.others n, k ∈ M.nodes ∧ k ∈ L (M.header k) := fun k hk =>
    ⟨((M.mem_others n hn k).mp hk).2.1, hin k hk⟩
  refine walk_ring_undo (h.row_ring hn) (h.length_others hn) (runAll_unlink s (M.others n)) ?_
  intro pre j post u v heq hu hv
  obtain rfl : s.unlinkAll pre = u := by simpa [runAll_unlink] using hu
  obtain rfl : (s.unlinkAll pre).unlink j = v := by simpa using hv
  rw [heq] at hnodup hnodes
  obtain ⟨hcols', hj⟩ := hcols.unlinkAll_split hnodup hnodes
  rw [relink_unlink hcols' (hnodes j (by simp)).1 hj]

end Rows

section Cover

theorem runAll_coverRow (h : Placed M s) {l : List ℕ} (hl : ∀ n ∈ l, n ∈ M.nodes) :
    runAll Nodes.coverRow s l = .ok (s.unlinkAll (l.flatMap M.others)) := by
  induction l generalizing s with
  | nil => rfl
  | cons n l ih =>
    obtain ⟨hn, hl⟩ := List.forall_mem_cons.mp hl
    rw [runAll_cons (coverRow_eq h hn), ih (h.unlinkAll _) hl, List.flatMap_cons, Nodes.unlinkAll_append]

/-- The nodes beside those of a column that is not covered. -/
theorem Shows.beside (h : Shows M C A L s) (hc : c ∈ C) (hj : j ∈ (L c).flatMap M.others) :
    j ∈ M.nodes ∧ j ∈ L (M.header j) ∧ M.header j ≠ c ∧ M.header j ∈ C := by
  obtain ⟨n, hn, hjn⟩ := List.mem_flatMap.mp hj
  obtain ⟨hnode, hheader⟩ := h.mem c (h.cols c hc) n hn
  obtain ⟨hne, hj, hrow⟩ := (M.mem_others n hnode j).mp hjn
  have hactive : M.row j ∈ A := by
    rw [hrow]
    exact (h.active n hnode (hheader ▸ hc)).mp (hheader ▸ hn)
  have hcol := h.closed j hj hactive
  refine ⟨hj, (h.active j hj hcol).mpr hactive, fun heq => hne ?_, hcol⟩
  exact M.header_inj j hj n hnode hrow (heq.trans hheader.symm)

theorem Shows.beside_nodup (h : Shows M C A L s) (hc : c ∈ C) : ((L c).flatMap M.others).Nodup := by
  have hring := (List.nodup_cons.mp (h.ring c (h.cols c hc)).nodup).2
  have hmem := h.mem c (h.cols c hc)
  rw [List.nodup_flatMap]
  refine ⟨fun n hn => (List.nodup_cons.mp (h.rows n (hmem n hn).1).nodup).2, ?_⟩
  refine hring.imp_of_mem fun {m n} hm hn hne => ?_
  intro k hkm hkn
  have hm' := hmem m hm
  have hn' := hmem n hn
  have hrow := ((M.mem_others m hm'.1 k).mp hkm).2.2.symm.trans ((M.mem_others n hn'.1 k).mp hkn).2.2
  exact hne (M.header_inj m hm'.1 n hn'.1 hrow (hm'.2.trans hn'.2.symm))

namespace Nodes

theorem hide_left (s : Nodes) (c : ℕ) : (s.hide c).left = Function.update s.left (s.right c) (s.left c) := rfl

theorem hide_right (s : Nodes) (c : ℕ) : (s.hide c).right = Function.update s.right (s.left c) (s.right c) := by
  have hleft : Function.update s.left (s.right c) (s.left c) c = s.left c := by
    by_cases hc : c = s.right c
    · rw [← hc, Function.update_self]
    · rw [Function.update_of_ne hc]
  simp only [hide, hleft]

theorem unhide_hide {x : ℕ} {l : List ℕ} (h : LinkRing s.right s.left x l) (hc : c ∈ l) :
    (s.hide c).unhide c = s := by
  obtain ⟨-, hright, hleftright⟩ := h.around hc
  obtain ⟨-, hleft, hrightleft⟩ := h.symm.around (List.mem_reverse.mpr hc)
  have hrightc : (s.hide c).right c = s.right c := by rw [hide_right, Function.update_of_ne hleft.symm]
  ext1
  · simp only [unhide, hrightc]
    rw [hide_left, Function.update_idem]
    exact Function.update_eq_self_iff.mpr hleftright.symm
  · have hleftc : Function.update (s.hide c).left (s.right c) c c = s.left c := by
      rw [Function.update_of_ne hright.symm, hide_left, Function.update_of_ne hright.symm]
    simp only [unhide, hrightc, hleftc]
    rw [hide_right, Function.update_idem]
    exact Function.update_eq_self_iff.mpr hrightleft.symm
  · rfl
  · rfl
  · rfl
  · rfl
  · rfl

end Nodes

theorem Shows.notMem_headers (h : Shows M C A L s) (hn : n ∈ M.nodes) : n ∉ M.root :: C := by
  intro hmem
  rcases List.mem_cons.mp hmem with rfl | hmem
  · exact M.root_notMem.2 hn
  · exact M.not_col n hn (h.cols n hmem)

theorem Shows.hide (h : Shows M C A L s) (hc : c ∈ C) :
    Placed M (s.hide c) ∧ Columns M L (s.hide c) ∧
      LinkRing (s.hide c).right (s.hide c).left M.root (C.filter (· ≠ c)) := by
  have hright := (h.headers.around hc).1
  have hleft : s.left c ∈ M.root :: C := by
    simpa using (h.headers.symm.around (List.mem_reverse.mpr hc)).1
  refine ⟨⟨h.col, fun n hn => ?_⟩, ⟨h.ring, h.mem⟩, ?_⟩
  · refine (h.rows n hn).congr fun a ha => ?_
    have hnode : a ∈ M.nodes := by
      rcases List.mem_cons.mp ha with rfl | ha
      · exact hn
      · exact ((M.mem_others n hn a).mp ha).2.1
    rw [Nodes.hide_right, Nodes.hide_left]
    refine ⟨Function.update_of_ne ?_ .., Function.update_of_ne ?_ ..⟩
    · rintro rfl
      exact h.notMem_headers hnode hleft
    · rintro rfl
      exact h.notMem_headers hnode hright
  · rw [Nodes.hide_right, Nodes.hide_left]
    exact h.headers.unlink hc

/-- The nodes of the covered column itself stay linked. -/
theorem Shows.without_self (h : Shows M C A L s) (hc : c ∈ C) {ks : List ℕ} (hks : ks ⊆ (L c).flatMap M.others) :
    without L ks c = L c := by
  refine List.filter_eq_self.mpr fun n hn => ?_
  have hnot : n ∉ ks := fun hmem => (h.beside hc (hks hmem)).2.2.1 (h.mem c (h.cols c hc) n hn).2
  simpa using hnot

theorem Shows.length_column (h : Shows M C A L s) (hc : c ∈ C) : (L c).length < rounds :=
  length_lt_rounds (List.nodup_cons.mp (h.ring c (h.cols c hc)).nodup).2 fun n hn =>
    M.bound n (h.mem c (h.cols c hc) n hn).1

theorem Shows.columns_split (h : Shows M C A L s) (hc : c ∈ C) {pre post : List ℕ} (heq : L c = pre ++ post) :
    Placed M ((s.hide c).unlinkAll (pre.flatMap M.others)) ∧
      Columns M (without L (pre.flatMap M.others)) ((s.hide c).unlinkAll (pre.flatMap M.others)) := by
  obtain ⟨hplaced, hcols, -⟩ := h.hide hc
  have hsub : (pre.flatMap M.others).Sublist ((L c).flatMap M.others) := by
    rw [heq, List.flatMap_append]
    exact List.sublist_append_left ..
  refine ⟨hplaced.unlinkAll _, hcols.unlinkAll ((h.beside_nodup hc).sublist hsub) fun j hj => ?_⟩
  have hj := h.beside hc (hsub.subset hj)
  exact ⟨hj.1, hj.2.1⟩

theorem Shows.runAll_pre (h : Shows M C A L s) (hc : c ∈ C) {pre post : List ℕ} (heq : L c = pre ++ post) :
    runAll Nodes.coverRow (s.hide c) pre = .ok ((s.hide c).unlinkAll (pre.flatMap M.others)) := by
  refine runAll_coverRow (h.hide hc).1 fun n hn => (h.mem c (h.cols c hc) n ?_).1
  exact heq ▸ List.mem_append_left post hn

theorem Shows.column_ring (h : Shows M C A L s) (hc : c ∈ C) (pre post : List ℕ) (u : Nodes) (heq : L c = pre ++ post)
    (hu : runAll Nodes.coverRow (s.hide c) pre = .ok u) : LinkRing u.down u.up c (L c) := by
  obtain rfl : (s.hide c).unlinkAll (pre.flatMap M.others) = u := by
    simpa [h.runAll_pre hc heq] using hu
  have hring := (h.columns_split hc heq).2.ring c (h.cols c hc)
  rwa [h.without_self hc] at hring
  rw [heq, List.flatMap_append]
  exact List.subset_append_left ..

theorem Shows.cover_eq (h : Shows M C A L s) (hc : c ∈ C) :
    s.cover c = .ok ((s.hide c).unlinkAll ((L c).flatMap M.others)) :=
  (walk_ring (h.column_ring hc) (h.length_column hc)).trans (h.runAll_pre hc (List.append_nil _).symm)

theorem Shows.uncover_eq (h : Shows M C A L s) (hc : c ∈ C) :
    ((s.hide c).unlinkAll ((L c).flatMap M.others)).uncover c = .ok s := by
  have hback : walk Nodes.up c Nodes.uncoverRow .endless rounds
      (((s.hide c).unlinkAll ((L c).flatMap M.others)).up c) ((s.hide c).unlinkAll ((L c).flatMap M.others)) =
        .ok (s.hide c) := by
    refine walk_ring_undo (h.column_ring hc) (h.length_column hc) (h.runAll_pre hc (List.append_nil _).symm) ?_
    intro pre n post u v heq hu hv
    obtain rfl : (s.hide c).unlinkAll (pre.flatMap M.others) = u := by
      simpa [h.runAll_pre hc heq] using hu
    obtain ⟨hplaced, hcols⟩ := h.columns_split hc heq
    have hnode : n ∈ M.nodes := (h.mem c (h.cols c hc) n (by simp [heq])).1
    obtain rfl : Nodes.unlinkAll _ (M.others n) = v := by simpa [coverRow_eq hplaced hnode] using hv
    refine uncoverRow_eq hplaced hcols hnode fun k hk => List.mem_filter.mpr ⟨?_, ?_⟩
    · refine (h.beside hc (List.mem_flatMap.mpr ⟨n, by simp [heq], hk⟩)).2.1
    · have hnodup := h.beside_nodup hc
      rw [heq, List.flatMap_append, List.flatMap_cons, List.nodup_append] at hnodup
      have hnot : k ∉ pre.flatMap M.others := fun hmem =>
        hnodup.2.2 k hmem k (List.mem_append_left _ hk) rfl
      simpa using hnot
  rw [Nodes.uncover, hback, ok_bind, Nodes.unhide_hide h.headers hc]

/-- Among the rows that are left, those beside a node of `c` are those that hit it. -/
theorem Shows.mem_beside_iff (h : Shows M C A L s) (hc : c ∈ C) (hn : n ∈ M.nodes) (hactive : M.row n ∈ A)
    (hne : M.header n ≠ c) : n ∈ (L c).flatMap M.others ↔ M.hits (M.row n) c := by
  rw [List.mem_flatMap]
  constructor
  · rintro ⟨m, hm, hnm⟩
    obtain ⟨hnode, hheader⟩ := h.mem c (h.cols c hc) m hm
    exact ⟨m, hnode, ((M.mem_others m hnode n).mp hnm).2.2.symm, hheader⟩
  · rintro ⟨m, hm, hrow, rfl⟩
    refine ⟨m, (h.active m hm hc).mpr (hrow ▸ hactive), (M.mem_others m hm n).mpr ⟨?_, hn, hrow.symm⟩⟩
    rintro rfl
    exact hne rfl

/-- Covering a column can be undone, and leaves the rest of the matrix without its rows. -/
theorem Shows.cover (h : Shows M C A L s) (hc : c ∈ C) :
    ∃ t L', s.cover c = .ok t ∧ t.uncover c = .ok s ∧ t.name = s.name ∧ L' c = L c ∧
      Shows M (C.filter (· ≠ c)) {r ∈ A | ¬ M.hits r c} L' t := by
  obtain ⟨-, -, hheaders⟩ := h.hide hc
  obtain ⟨hplaced, hcols⟩ := h.columns_split hc (List.append_nil (L c)).symm
  obtain ⟨hright, hleft, -, hname⟩ := (s.hide c).unlinkAll_rest ((L c).flatMap M.others)
  refine ⟨_, without L ((L c).flatMap M.others), h.cover_eq hc, h.uncover_eq hc, hname,
    h.without_self hc (List.Subset.refl _), ⟨hplaced, hcols, ?_, ?_, ?_, ?_⟩⟩
  · rwa [hright, hleft]
  · exact fun d hd => h.cols d (List.mem_of_mem_filter hd)
  · intro n hn hcol
    rw [List.mem_filter] at hcol
    have hne : M.header n ≠ c := by simpa using hcol.2
    rw [without, List.mem_filter, h.active n hn hcol.1, decide_eq_true_eq]
    constructor
    · rintro ⟨hactive, hnot⟩
      exact ⟨hactive, fun hhit => hnot ((h.mem_beside_iff hc hn hactive hne).mpr hhit)⟩
    · rintro ⟨hactive, hmiss⟩
      exact ⟨hactive, fun hmem => hmiss ((h.mem_beside_iff hc hn hactive hne).mp hmem)⟩
  · rintro n hn ⟨hactive, hmiss⟩
    refine List.mem_filter.mpr ⟨h.closed n hn hactive, ?_⟩
    have hne : M.header n ≠ c := fun heq => hmiss ⟨n, hn, rfl, heq⟩
    simpa using hne

end Cover

section Others

/-- Covering the columns of several nodes, one after the other. -/
theorem Shows.coverAll (h : Shows M C A L s) {ks : List ℕ} (hks : ∀ k ∈ ks, k ∈ M.nodes ∧ M.header k ∈ C)
    (hdist : (ks.map M.header).Nodup) :
    ∃ t L', runAll Nodes.coverAt s ks = .ok t ∧ t.name = s.name ∧
      Shows M (C.filter (· ∉ ks.map M.header)) {r ∈ A | ∀ k ∈ ks, ¬ M.hits r (M.header k)} L' t := by
  induction ks generalizing s C A L with
  | nil => exact ⟨s, L, rfl, rfl, by simpa using h⟩
  | cons k ks ih =>
    obtain ⟨⟨hk, hkC⟩, hks⟩ := List.forall_mem_cons.mp hks
    rw [List.map_cons, List.nodup_cons] at hdist
    obtain ⟨t, L', ht, -, hname, -, h'⟩ := h.cover hkC
    have hks' : ∀ m ∈ ks, m ∈ M.nodes ∧ M.header m ∈ C.filter (· ≠ M.header k) := by
      refine fun m hm => ⟨(hks m hm).1, List.mem_filter.mpr ⟨(hks m hm).2, ?_⟩⟩
      have hne : M.header m ≠ M.header k := fun heq => hdist.1 (heq ▸ List.mem_map_of_mem hm)
      simpa using hne
    obtain ⟨u, L'', hu, hname', h''⟩ := ih h' hks' hdist.2
    refine ⟨u, L'', ?_, hname'.trans hname, ?_⟩
    · have hstep : s.coverAt k = .ok t := by rw [Nodes.coverAt, h.col k hk, ht]
      rw [runAll_cons hstep, hu]
    · have hC : (C.filter (· ≠ M.header k)).filter (· ∉ ks.map M.header) = C.filter (· ∉ (k :: ks).map M.header) := by
        simp [List.filter_filter, Bool.and_comm]
      have hA : {r ∈ {r ∈ A | ¬ M.hits r (M.header k)} | ∀ m ∈ ks, ¬ M.hits r (M.header m)} =
          {r ∈ A | ∀ m ∈ k :: ks, ¬ M.hits r (M.header m)} := by
        ext r
        simp [and_assoc]
      rwa [hC, hA] at h''

theorem Layout.headers_nodup (M : Layout ρ) (h : Placed M s) (hn : n ∈ M.nodes) :
    ((M.others n).map M.header).Nodup := by
  refine (List.nodup_map_iff_inj_on (List.nodup_cons.mp (h.rows n hn).nodup).2).mpr fun k hk m hm heq => ?_
  obtain ⟨-, hk, hrow⟩ := (M.mem_others n hn k).mp hk
  obtain ⟨-, hm, hrow'⟩ := (M.mem_others n hn m).mp hm
  exact M.header_inj k hk m hm (hrow.trans hrow'.symm) heq

theorem Layout.hits_iff (M : Layout ρ) (hn : n ∈ M.nodes) :
    M.hits (M.row n) d ↔ d = M.header n ∨ ∃ k ∈ M.others n, M.header k = d := by
  constructor
  · rintro ⟨k, hk, hrow, rfl⟩
    by_cases heq : k = n
    · exact .inl (congrArg M.header heq)
    · exact .inr ⟨k, (M.mem_others n hn k).mpr ⟨heq, hk, hrow⟩, rfl⟩
  · rintro (rfl | ⟨k, hk, rfl⟩)
    · exact ⟨n, hn, rfl, rfl⟩
    · obtain ⟨-, hk, hrow⟩ := (M.mem_others n hn k).mp hk
      exact ⟨k, hk, hrow, rfl⟩

theorem Shows.coverOthers (h : Shows M C A L s) (hn : n ∈ M.nodes) (hks : ∀ k ∈ M.others n, M.header k ∈ C) :
    ∃ t L', s.coverOthers n = .ok t ∧ t.uncoverOthers n = .ok s ∧ t.name = s.name ∧
      Shows M (C.filter (· ∉ (M.others n).map M.header))
        {r ∈ A | ∀ k ∈ M.others n, ¬ M.hits r (M.header k)} L' t := by
  have hnodes : ∀ k ∈ M.others n, k ∈ M.nodes ∧ M.header k ∈ C := fun k hk =>
    ⟨((M.mem_others n hn k).mp hk).2.1, hks k hk⟩
  have hnodup := M.headers_nodup h.toPlaced hn
  have hpre : ∀ pre post u, M.others n = pre ++ post → runAll Nodes.coverAt s pre = .ok u →
      ∃ L', Shows M (C.filter (· ∉ pre.map M.header)) {r ∈ A | ∀ k ∈ pre, ¬ M.hits r (M.header k)} L' u := by
    intro pre post u heq hu
    rw [heq] at hnodes hnodup
    rw [List.map_append] at hnodup
    obtain ⟨u', L', hu', -, h'⟩ := h.coverAll (fun k hk => hnodes k (List.mem_append_left _ hk)) hnodup.of_append_left
    obtain rfl : u' = u := by simpa using hu'.symm.trans hu
    exact ⟨L', h'⟩
  have hring : ∀ pre post u, M.others n = pre ++ post → runAll Nodes.coverAt s pre = .ok u →
      LinkRing u.right u.left n (M.others n) := by
    intro pre post u heq hu
    obtain ⟨L', h'⟩ := hpre pre post u heq hu
    exact h'.rows n hn
  obtain ⟨t, L', ht, hname, h'⟩ := h.coverAll hnodes hnodup
  refine ⟨t, L', (walk_ring hring (h.length_others hn)).trans ht, ?_, hname, h'⟩
  refine walk_ring_undo hring (h.length_others hn) ht fun pre k post u v heq hu hv => ?_
  obtain ⟨L'', h''⟩ := hpre pre (k :: post) u heq hu
  rw [heq] at hnodes hnodup
  have hk := hnodes k (by simp)
  have hkC : M.header k ∈ C.filter (· ∉ pre.map M.header) := by
    rw [List.map_append, List.map_cons, List.nodup_append] at hnodup
    refine List.mem_filter.mpr ⟨hk.2, decide_eq_true fun hmem => ?_⟩
    exact hnodup.2.2 _ hmem _ List.mem_cons_self rfl
  obtain ⟨v', L₁, hv', hback, -, -, hshows⟩ := h''.cover hkC
  obtain rfl : v' = v := by
    rw [Nodes.coverAt, h''.col k hk.1, hv'] at hv
    simpa using hv
  rw [Nodes.uncoverAt, hshows.col k hk.1, hback]

/-- Taking a row of the covered column leaves the columns that it does not hit, and the rows beside it. -/
theorem Shows.takeRow (h : Shows M C A L s) (hc : c ∈ C) {t : Nodes} {L' : ℕ → List ℕ}
    (hcovered : Shows M (C.filter (· ≠ c)) {r ∈ A | ¬ M.hits r c} L' t) (hn : n ∈ L c) :
    ∃ u C' L'', t.coverOthers n = .ok u ∧ u.uncoverOthers n = .ok t ∧ u.name = t.name ∧ C'.length < C.length ∧
      {d | d ∈ C'} = colsWithout M.hits {d | d ∈ C} (M.row n) ∧ Shows M C' (rowsBeside M.hits A (M.row n)) L'' u := by
  obtain ⟨hnode, rfl⟩ := h.mem c (h.cols c hc) n hn
  have hactive : M.row n ∈ A := (h.active n hnode hc).mp hn
  have hothers : ∀ k ∈ M.others n, M.header k ∈ C.filter (· ≠ M.header n) := by
    intro k hk
    obtain ⟨hne, hk, hrow⟩ := (M.mem_others n hnode k).mp hk
    refine List.mem_filter.mpr ⟨h.closed k hk (hrow ▸ hactive), decide_eq_true fun heq => hne ?_⟩
    exact M.header_inj k hk n hnode hrow heq
  obtain ⟨u, L'', hu, hback, hname, h''⟩ := hcovered.coverOthers hnode hothers
  refine ⟨u, (C.filter (· ≠ M.header n)).filter (· ∉ (M.others n).map M.header), L'', hu, hback, hname, ?_, ?_, ?_⟩
  · refine Nat.lt_of_le_of_lt (List.length_filter_le ..) ?_
    exact List.length_filter_lt_length_iff_exists.mpr ⟨M.header n, hc, by simp⟩
  · ext d
    rw [colsWithout, Set.mem_ofPred_eq, Set.mem_ofPred_eq, M.hits_iff hnode]
    simp [and_comm]
  · have hA : {r ∈ {r ∈ A | ¬ M.hits r (M.header n)} | ∀ k ∈ M.others n, ¬ M.hits r (M.header k)} =
        rowsBeside M.hits A (M.row n) := by
      ext r
      simp only [rowsBeside, Set.mem_ofPred_eq, M.hits_iff hnode]
      constructor
      · rintro ⟨⟨hr, hmiss⟩, hmiss'⟩
        refine ⟨hr, ?_⟩
        rintro d (rfl | ⟨k, hk, rfl⟩)
        · exact hmiss
        · exact hmiss' k hk
      · rintro ⟨hr, hmiss⟩
        exact ⟨⟨hr, hmiss _ (.inl rfl)⟩, fun k hk => hmiss _ (.inr ⟨k, hk, rfl⟩)⟩
    rwa [hA] at h''

end Others

end CppBase.Muduo.Sudoku
