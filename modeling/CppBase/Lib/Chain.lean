import Mathlib.Data.List.Nodup
import Mathlib.Logic.Function.Basic

/-! Cells in memory that point to one another. A segment is the list of the cells passed
on the way from one pointer to another; one that ends at no cell is determined by its
first pointer, and passes no cell twice. -/

namespace CppBase.Lib

structure Cell (κ ν : Type) where
  next : Option κ
  value : ν

variable {κ ν : Type}

/-- The cells from `p` to `q`, with their addresses and values. -/
def Seg (mem : κ → Option (Cell κ ν)) : Option κ → List (κ × ν) → Option κ → Prop
  | p, [], q => p = q
  | p, (a, v) :: l, q => p = some a ∧ ∃ n, mem a = some ⟨n, v⟩ ∧ Seg mem n l q

variable {mem mem' : κ → Option (Cell κ ν)} {p q r : Option κ} {l m : List (κ × ν)} {a : κ} {v : ν}

@[simp] theorem seg_nil : Seg mem p [] q ↔ p = q := Iff.rfl

@[simp] theorem seg_cons : Seg mem p ((a, v) :: l) q ↔ p = some a ∧ ∃ n, mem a = some ⟨n, v⟩ ∧ Seg mem n l q :=
  Iff.rfl

theorem seg_append : Seg mem p (l ++ m) q ↔ ∃ r, Seg mem p l r ∧ Seg mem r m q := by
  induction l generalizing p with
  | nil => simp
  | cons x l ih =>
    obtain ⟨a, v⟩ := x
    rw [List.cons_append, seg_cons]
    constructor
    · rintro ⟨hp, n, hn, hrest⟩
      obtain ⟨r, hl, hm⟩ := ih.mp hrest
      exact ⟨r, ⟨hp, n, hn, hl⟩, hm⟩
    · rintro ⟨r, ⟨hp, n, hn, hl⟩, hm⟩
      exact ⟨hp, n, hn, ih.mpr ⟨r, hl, hm⟩⟩

theorem Seg.append (hl : Seg mem p l r) (hm : Seg mem r m q) : Seg mem p (l ++ m) q :=
  seg_append.mpr ⟨r, hl, hm⟩

theorem Seg.mem_of_some (h : Seg mem (some a) l q) (hl : l ≠ []) : a ∈ l.map Prod.fst := by
  cases l with
  | nil => exact absurd rfl hl
  | cons x l =>
    obtain rfl : a = x.1 := Option.some.inj h.1
    exact List.mem_cons_self

theorem Seg.congr (h : Seg mem p l q) (hmem : ∀ x ∈ l, mem' x.1 = mem x.1) : Seg mem' p l q := by
  induction l generalizing p with
  | nil => exact h
  | cons x l ih =>
    obtain ⟨hp, n, hn, hrest⟩ := h
    obtain ⟨hx, hl⟩ := List.forall_mem_cons.mp hmem
    exact ⟨hp, n, hx.trans hn, ih hrest hl⟩

theorem Seg.unique (hl : Seg mem p l none) (hm : Seg mem p m none) : l = m := by
  induction l generalizing p m with
  | nil =>
    obtain rfl : p = none := hl
    cases m with
    | nil => rfl
    | cons y m => cases hm.1
  | cons x l ih =>
    obtain ⟨rfl, n, hn, hrest⟩ := hl
    cases m with
    | nil => cases hm
    | cons y m =>
      obtain ⟨a, v⟩ := x
      obtain ⟨b, w⟩ := y
      obtain ⟨heq, n', hn', hrest'⟩ := hm
      obtain rfl : a = b := Option.some.inj heq
      obtain ⟨rfl, rfl⟩ : n = n' ∧ v = w := by simpa using hn.symm.trans hn'
      rw [ih hrest hrest']

/-- A cell passed twice would be passed for ever. -/
theorem Seg.nodup (h : Seg mem p l none) : (l.map Prod.fst).Nodup := by
  induction l generalizing p with
  | nil => simp
  | cons x l ih =>
    obtain ⟨a, v⟩ := x
    obtain ⟨rfl, n, hn, hrest⟩ := h
    refine List.nodup_cons.mpr ⟨fun ha => ?_, ih hrest⟩
    obtain ⟨⟨b, w⟩, hb, rfl⟩ := List.mem_map.mp ha
    obtain ⟨l₁, l₂, rfl⟩ := List.append_of_mem hb
    obtain ⟨r, -, hr⟩ := seg_append.mp hrest
    obtain rfl : r = some b := hr.1
    have htwice : Seg mem (some b) ((b, v) :: (l₁ ++ (b, w) :: l₂)) none := ⟨rfl, n, hn, hrest⟩
    have hlen := congrArg List.length (hr.unique htwice)
    rw [List.length_cons, List.length_cons, List.length_append, List.length_cons] at hlen
    omega

/-- Around one of its cells, a segment falls into two. -/
theorem Seg.split (h : Seg mem p (l ++ (a, v) :: m) q) :
    ∃ n, mem a = some ⟨n, v⟩ ∧ Seg mem p l (some a) ∧ Seg mem n m q := by
  obtain ⟨r, hl, rfl, n, hn, hm⟩ := seg_append.mp h
  exact ⟨n, hn, hl, hm⟩

theorem Seg.once (h : Seg mem p (l ++ (a, v) :: m) none) : a ∉ l.map Prod.fst ∧ a ∉ m.map Prod.fst := by
  have hnodup := h.nodup
  rw [List.map_append, List.map_cons, List.nodup_append] at hnodup
  obtain ⟨-, hcons, hdisj⟩ := hnodup
  exact ⟨fun ha => hdisj a ha a List.mem_cons_self rfl, (List.nodup_cons.mp hcons).1⟩

variable [DecidableEq κ]

theorem Seg.update (h : Seg mem p l q) (ha : a ∉ l.map Prod.fst) (c : Option (Cell κ ν)) :
    Seg (Function.update mem a c) p l q := by
  refine h.congr fun x hx => Function.update_of_ne (fun heq => ha ?_) ..
  exact heq ▸ List.mem_map_of_mem hx

theorem Seg.insert_after {f : κ} {w : ν} {n : Option κ} (h : Seg mem p (l ++ (a, w) :: m) none)
    (ha : mem a = some ⟨n, w⟩) (hf : f ∉ (l ++ (a, w) :: m).map Prod.fst) :
    Seg (Function.update (Function.update mem f (some ⟨n, v⟩)) a (some ⟨some f, w⟩)) p
      (l ++ (a, w) :: (f, v) :: m) none := by
  obtain ⟨hal, ham⟩ := h.once
  obtain ⟨n', hn', hl, hm⟩ := h.split
  obtain rfl : n' = n := by simpa using hn'.symm.trans ha
  simp only [List.map_append, List.map_cons, List.mem_append, List.mem_cons, not_or] at hf
  obtain ⟨hfl, hfa, hfm⟩ := hf
  have hnew : Function.update (Function.update mem f (some ⟨n', v⟩)) a (some ⟨some f, w⟩) f = some ⟨n', v⟩ := by
    rw [Function.update_of_ne hfa, Function.update_self]
  exact ((hl.update hfl _).update hal _).append
    ⟨rfl, some f, Function.update_self .., rfl, n', hnew, (hm.update hfm _).update ham _⟩

/-- The cell `b` behind `a` is passed over, whatever becomes of it. -/
theorem Seg.remove_after {b : κ} {w : ν} {n : Option κ} (h : Seg mem p (l ++ (a, w) :: (b, v) :: m) none)
    (hb : mem b = some ⟨n, v⟩) (c : Option (Cell κ ν)) :
    Seg (Function.update (Function.update mem a (some ⟨n, w⟩)) b c) p (l ++ (a, w) :: m) none := by
  obtain ⟨hal, ham⟩ := h.once
  obtain ⟨_, -, hl, hrest⟩ := h.split
  rw [List.append_cons] at h
  obtain ⟨hbl, hbm⟩ := h.once
  obtain ⟨-, n', hn', hm⟩ := hrest
  obtain rfl : n' = n := by simpa using hn'.symm.trans hb
  simp only [List.map_append, List.map_cons, List.map_nil, List.mem_append, List.mem_cons, List.not_mem_nil,
    or_false, not_or] at hbl ham
  have ha : Function.update (Function.update mem a (some ⟨n', w⟩)) b c a = some ⟨n', w⟩ := by
    rw [Function.update_of_ne ham.1, Function.update_self]
  exact ((hl.update hal _).update hbl.1 _).append ⟨rfl, n', ha, (hm.update ham.2 _).update hbm _⟩

end CppBase.Lib
