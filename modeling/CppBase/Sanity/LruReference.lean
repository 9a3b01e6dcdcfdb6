import Mathlib.Data.List.Dedup
import Mathlib.Data.List.Induction
import Mathlib.Data.List.Perm.Subperm
import CppBase.Lib.Lru
import CppBase.Spec.LruCache

/-! The cache that `lru_cache` is meant to be: one list of entries, by how
recently their keys were put or got. An entry leaves it by `put` only after as
many other keys as there is room for have been used since its own last use. -/

namespace CppBase.Utility.LruCache

open CppBase.Lib

variable {K V : Type}

def Op.used : Op K V → Option K
  | .put key _ => some key
  | .get key => some key
  | .getIter key => some key
  | _ => none

/-- The calls after the last one that uses `x`. -/
def LastUse (x : K) (ops later : List (Op K V)) : Prop :=
  ∃ pre op, ops = pre ++ op :: later ∧ op.used = some x ∧ ∀ o ∈ later, o.used ≠ some x

theorem LastUse.snoc {x : K} {op : Op K V} {ops later : List (Op K V)} (h : LastUse x ops later)
    (hop : op.used ≠ some x) :
    LastUse x (ops ++ [op]) (later ++ [op]) := by
  obtain ⟨pre, o, rfl, ho, hlater⟩ := h
  refine ⟨pre, o, by simp, ho, ?_⟩
  intro o' ho'
  rcases List.mem_append.mp ho' with ho' | ho'
  · exact hlater o' ho'
  · rwa [List.mem_singleton.mp ho']

variable [DecidableEq K]

def reference (cap : ℕ) (l : List (K × V)) : Op K V → Answer K V × List (K × V)
  | .put key value => (.nothing, Lru.store cap key value l)
  | .get key =>
    match Lru.find key l with
    | some e => (.value e.2, Lru.toFront key l)
    | none => (.thrown "There is no such key in cache", l)
  | .getIter key => (.entry (Lru.find key l), Lru.toFront key l)
  | .find key => (.entry (Lru.find key l), l)
  | .existsKey key => (.bool (key ∈ Lru.keys l), l)
  | .erase key => (.count (if key ∈ Lru.keys l then 1 else 0), Lru.remove key l)
  | .clear => (.nothing, [])

def refStep (cap : ℕ) (x : List (K × V) × List (Answer K V)) (op : Op K V) : List (K × V) × List (Answer K V) :=
  ((reference cap x.1 op).2, x.2 ++ [(reference cap x.1 op).1])

def refRun (cap : ℕ) (ops : List (Op K V)) : List (K × V) × List (Answer K V) := ops.foldl (refStep cap) ([], [])

theorem refRun_snoc (cap : ℕ) (ops : List (Op K V)) (op : Op K V) :
    refRun cap (ops ++ [op]) = refStep cap (refRun cap ops) op := by
  simp [refRun]

section Eviction

def othersUsed (x : K) (ops : List (Op K V)) : List K := ((ops.filterMap Op.used).filter (· ≠ x)).dedup

variable {cap : ℕ} {l : List (K × V)} {x : K} {op : Op K V} {ops : List (Op K V)}

theorem get_snd (cap : ℕ) (l : List (K × V)) (key : K) : (reference cap l (.get key)).2 = Lru.toFront key l := by
  cases h : Lru.find key l <;> simp [reference, Lru.toFront, h]

theorem nodup_reference (h : (Lru.keys l).Nodup) (op : Op K V) : (Lru.keys (reference cap l op).2).Nodup := by
  cases op with
  | put key value => exact Lru.nodup_keys_trim (Lru.nodup_keys_cons_remove h (key, value)) cap
  | get key =>
    rw [get_snd]
    exact Lru.nodup_keys_toFront h key
  | getIter key => exact Lru.nodup_keys_toFront h key
  | find key => exact h
  | existsKey key => exact h
  | erase key => exact Lru.nodup_keys_remove h key
  | clear => exact .nil

/-- Using a key puts it at the front, and no other key gets ahead of `x`. -/
def Moved (x : K) (used : Option K) (l l' : List (K × V)) : Prop :=
  (used = some x ∧ Lru.ahead x l' = []) ∨
    (used ≠ some x ∧ x ∈ Lru.keys l ∧ Lru.ahead x l' ⊆ used.toList ++ Lru.ahead x l)

theorem moved_front {e : K × V} (hx : x ∈ Lru.keys (e :: Lru.remove e.1 l)) :
    Moved x (some e.1) l (e :: Lru.remove e.1 l) := by
  by_cases hk : e.1 = x
  · obtain ⟨k, v⟩ := e
    subst hk
    exact Or.inl ⟨rfl, Lru.ahead_cons_self v _⟩
  · refine Or.inr ⟨fun heq => hk (Option.some.inj heq), ?_, ?_⟩
    · rw [Lru.keys_cons, List.mem_cons, Lru.keys_remove, List.mem_filter] at hx
      exact (hx.resolve_left (Ne.symm hk)).1
    · rw [Lru.ahead_cons_of_ne hk]
      exact List.cons_subset_cons _ (Lru.ahead_remove_subset hk l)

theorem moved_toFront {key : K} (hx : x ∈ Lru.keys (Lru.toFront key l)) :
    Moved x (some key) l (Lru.toFront key l) := by
  unfold Lru.toFront at hx ⊢
  cases hf : Lru.find key l with
  | some e =>
    rw [hf] at hx
    obtain rfl := Lru.key_of_find hf
    exact moved_front hx
  | none =>
    rw [hf] at hx
    refine Or.inr ⟨?_, hx, List.subset_cons_self _ _⟩
    rintro ⟨⟩
    exact Lru.find_eq_none.mp hf hx

theorem moved_reference (hx : x ∈ Lru.keys (reference cap l op).2) : Moved x op.used l (reference cap l op).2 := by
  cases op with
  | put key value =>
    rcases moved_front (Lru.keys_trim_subset cap _ hx) with ⟨hk, hnil⟩ | ⟨hk, hmem, hsub⟩
    · exact Or.inl ⟨hk, List.subset_nil.mp (hnil ▸ Lru.ahead_trim_subset x cap _)⟩
    · exact Or.inr ⟨hk, hmem, List.Subset.trans (Lru.ahead_trim_subset x cap _) hsub⟩
  | get key =>
    rw [get_snd] at hx ⊢
    exact moved_toFront hx
  | getIter key => exact moved_toFront hx
  | find key => exact Or.inr ⟨nofun, hx, List.Subset.refl _⟩
  | existsKey key => exact Or.inr ⟨nofun, hx, List.Subset.refl _⟩
  | erase key =>
    rw [reference, Lru.keys_remove, List.mem_filter, decide_eq_true_eq] at hx
    exact Or.inr ⟨nofun, hx.1, Lru.ahead_remove_subset (Ne.symm hx.2) l⟩
  | clear => cases hx

/-- The keys ahead of one have been used since its last use. -/
theorem exists_lastUse (cap : ℕ) (ops : List (Op K V)) : (Lru.keys (refRun cap ops).1).Nodup ∧
    ∀ x ∈ Lru.keys (refRun cap ops).1, ∃ later, LastUse x ops later ∧
      Lru.ahead x (refRun cap ops).1 ⊆ later.filterMap Op.used := by
  induction ops using List.reverseRecOn with
  | nil => exact ⟨.nil, nofun⟩
  | append_singleton ops op ih =>
    rw [refRun_snoc]
    refine ⟨nodup_reference ih.1 op, ?_⟩
    intro x hx
    rcases moved_reference hx with ⟨hused, hnil⟩ | ⟨hused, hmem, hsub⟩
    · refine ⟨[], ⟨ops, op, rfl, hused, nofun⟩, ?_⟩
      rw [refStep, hnil]
      exact List.nil_subset _
    · obtain ⟨later, hlast, hlater⟩ := ih.2 x hmem
      refine ⟨later ++ [op], hlast.snoc hused, ?_⟩
      intro y hy
      rw [List.filterMap_append, List.mem_append]
      rcases List.mem_append.mp (hsub hy) with hy | hy
      · exact Or.inr (List.mem_filterMap.mpr ⟨op, by simp, by simpa using hy⟩)
      · exact Or.inl (hlater hy)

/-- A key that neither `erase` nor `clear` takes out goes for lack of room. -/
theorem trimmed_of_gone (hx : x ∈ Lru.keys l) (hout : x ∉ Lru.keys (reference cap l op).2) (herase : op ≠ .erase x)
    (hclear : op ≠ .clear) : ∃ key value, op = .put key value ∧ x ∈ Lru.keys ((key, value) :: Lru.remove key l) ∧
      x ∉ Lru.keys (Lru.trim cap ((key, value) :: Lru.remove key l)) := by
  cases op with
  | put key value =>
    refine ⟨key, value, rfl, ?_, hout⟩
    rw [Lru.keys_cons, List.mem_cons, Lru.keys_remove, List.mem_filter, decide_eq_true_eq]
    exact (eq_or_ne x key).imp_right fun hne => ⟨hx, hne⟩
  | get key =>
    rw [get_snd, Lru.mem_keys_toFront] at hout
    exact absurd hx hout
  | getIter key => exact absurd (Lru.mem_keys_toFront.mpr hx) hout
  | find key => exact absurd hx hout
  | existsKey key => exact absurd hx hout
  | erase key =>
    rw [reference, Lru.keys_remove, List.mem_filter, decide_eq_true_eq] at hout
    exact absurd ⟨hx, fun heq => herase (by rw [heq])⟩ hout
  | clear => exact absurd rfl hclear

/-- An entry goes for lack of room only if as many other keys as there is room for were used since its last use. -/
theorem evicted_after (hx : x ∈ Lru.keys (refRun cap ops).1) (hout : x ∉ Lru.keys (refRun cap (ops ++ [op])).1)
    (herase : op ≠ .erase x) (hclear : op ≠ .clear) :
    ∃ later, LastUse x ops later ∧ cap ≤ (othersUsed x (later ++ [op])).length := by
  obtain ⟨hnodup, hlast⟩ := exists_lastUse cap ops
  obtain ⟨later, huse, hlater⟩ := hlast x hx
  rw [refRun_snoc] at hout
  obtain ⟨key, value, rfl, hin, hgone⟩ := trimmed_of_gone hx hout herase hclear
  refine ⟨later, huse, (Lru.ahead_of_trimmed hin hgone).trans ?_⟩
  refine (List.subperm_of_subset (Lru.nodup_ahead (Lru.nodup_keys_cons_remove hnodup (key, value)) x) ?_).length_le
  intro y hy
  have hne : y ≠ x := fun heq => Lru.notMem_ahead x _ (heq ▸ hy)
  rw [othersUsed, List.mem_dedup, List.mem_filter, List.filterMap_append, List.mem_append]
  refine ⟨?_, by simpa using hne⟩
  rcases moved_front hin with ⟨-, hnil⟩ | ⟨-, -, hsub⟩
  · rw [hnil] at hy
    cases hy
  · rcases List.mem_cons.mp (hsub hy) with rfl | hy
    · exact Or.inr (by simp [Op.used])
    · exact Or.inl (hlater hy)

end Eviction

end CppBase.Utility.LruCache
