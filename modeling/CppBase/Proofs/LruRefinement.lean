import CppBase.Sanity.LruIndex
import CppBase.Sanity.LruReference

/-! `lru_cache` behaves like the reference as long as `erase` finds nothing to
erase: on a key that is there it dereferences the iterator it has just erased. -/

namespace CppBase.Utility.LruCache

open CppBase.Lib

variable {K V : Type} [DecidableEq K] {s : LruCache K V} {n : Node K V} {cap : ℕ} {l : List (K × V)} {op : Op K V}
  {ops : List (Op K V)}

/-- Both containers describe the entries `l`, and there is room for them. -/
structure Represents (s : LruCache K V) (cap : ℕ) (l : List (K × V)) : Prop where
  indexed : s.Indexed
  entries : s.entries = l
  capacity : s.capacity = cap
  size : s.size ≤ cap

section Operations

def fronted (s : LruCache K V) (n : Node K V) : LruCache K V := { s with list := n :: s.others n.key }

theorem Indexed.spliceFront_eq (h : s.Indexed) (hn : n ∈ s.list) :
    s.spliceFront (some n.address) = .ok (s.fronted n) := by
  rw [spliceFront, h.deref_eq hn, ok_bind, h.filter_address hn, fronted]

theorem Indexed.entries_fronted (h : s.Indexed) (hn : n ∈ s.list) :
    (s.fronted n).entries = Lru.toFront n.key s.entries := by
  rw [Lru.toFront, h.find_eq hn, ← entries_others]
  rfl

theorem Represents.fronted (h : s.Represents cap l) (hn : n ∈ s.list) :
    (s.fronted n).Represents cap (Lru.toFront n.key l) :=
  ⟨h.indexed.perm (h.indexed.perm_front hn), by rw [h.indexed.entries_fronted hn, h.entries], h.capacity, h.size⟩

def placed (s : LruCache K V) (key : K) (value : V) (m : AList fun _ : K => ListIterator) : LruCache K V :=
  ⟨⟨s.nextAddress, key, value⟩ :: s.others key, m.insert key (some s.nextAddress), s.capacity, s.nextAddress + 1⟩

theorem entries_placed (s : LruCache K V) (key : K) (value : V) (m : AList fun _ : K => ListIterator) :
    (s.placed key value m).entries = (key, value) :: Lru.remove key s.entries := by
  rw [← entries_others]
  rfl

def evict (t : LruCache K V) : Except Fault (LruCache K V) :=
  if t.size > t.capacity then
    match t.list.getLast? with
    | some last => .ok (t.mapErase last.key).popBack
    | none => .error .invalidIterator
  else .ok t

theorem Indexed.evict (h : s.Indexed) : ∃ t, s.evict = .ok t ∧ t.Indexed ∧
    t.entries = Lru.trim s.capacity s.entries ∧ t.capacity = s.capacity := by
  have hlen := h.length_entries
  unfold LruCache.evict Lru.trim
  by_cases hfull : s.size > s.capacity
  · rw [if_pos hfull, if_pos (by omega)]
    rcases List.eq_nil_or_concat s.list with hnil | ⟨l, last, hl⟩
    · rw [h.size_eq, hnil] at hfull
      exact absurd hfull (Nat.not_lt_zero _)
    · rw [List.concat_eq_append] at hl
      have hothers := others_getLast hl h.keys
      have hdrop : s.list.dropLast = s.others last.key := by rw [hothers, hl, List.dropLast_concat]
      refine ⟨{ s with list := s.others last.key, map := s.map.erase last.key }, ?_, h.removed last.key, ?_, rfl⟩
      · simp only [hl, List.getLast?_concat]
        rw [popBack, mapErase, hdrop]
      · rw [LruCache.entries, LruCache.entries, ← List.map_dropLast, hdrop]
  · rw [if_neg hfull, if_neg (by omega)]
    exact ⟨s, rfl, h, rfl, rfl⟩

/-- `_list.erase(it->second)` in `put` spares the node just pushed. -/
theorem Indexed.listErase_pushFront (h : s.Indexed) (hn : n ∈ s.list) (key : K) (value : V) :
    (s.pushFront key value).listErase (some n.address) =
      .ok { s.pushFront key value with list := ⟨s.nextAddress, key, value⟩ :: s.others n.key } := by
  have hne : s.nextAddress ≠ n.address := (h.fresh n hn).ne'
  have hderef : (s.pushFront key value).deref (some n.address) = .ok n := by
    have hnode : (s.pushFront key value).node? (some n.address) = s.node? (some n.address) := by
      rw [node?, pushFront, List.find?_cons_of_neg (by simpa using hne)]
      rfl
    rw [deref, hnode, h.node_eq hn]
  rw [listErase, hderef, ok_bind, pushFront, List.filter_cons_of_pos (by simpa using hne), h.filter_address hn]

theorem Indexed.put_eq (h : s.Indexed) (key : K) (value : V) :
    ∃ m, (∀ k, k ≠ key → m.lookup k = s.map.lookup k) ∧ s.put key value = (s.placed key value m).evict := by
  unfold put
  by_cases hk : key ∈ s.map
  · obtain ⟨n, hn, rfl⟩ := h.exists_node hk
    have hsecond : (s.pushFront n.key value).second n.key = .ok (some n.address) := h.second_eq hn
    refine ⟨s.map.erase n.key, fun k hne => AList.lookup_erase_ne hne, ?_⟩
    simp only [hk, if_true, hsecond, ok_bind, h.listErase_pushFront hn]
    rfl
  · refine ⟨s.map, fun _ _ => rfl, ?_⟩
    have hothers : s.others key = s.list := by
      refine List.filter_eq_self.mpr fun n hn => ?_
      simpa using fun heq : n.key = key => hk (h.mem_map.mpr (heq ▸ List.mem_map_of_mem hn))
    simp only [hk, if_false, ok_bind]
    rw [placed, hothers]
    rfl

theorem Represents.put (h : s.Represents cap l) (key : K) (value : V) :
    ∃ t, s.put key value = .ok t ∧ t.Represents cap (Lru.store cap key value l) := by
  obtain ⟨m, hm, heq⟩ := h.indexed.put_eq key value
  obtain ⟨t, ht, hindexed, hentries, hcap⟩ := (h.indexed.inserted key value hm).evict
  have hstore : t.entries = Lru.store cap key value l := by
    rw [hentries, ← h.entries, ← h.capacity]
    exact congrArg _ (s.entries_placed key value m)
  have hlen : l.length ≤ cap := by
    rw [← h.entries, h.indexed.length_entries]
    exact h.size
  refine ⟨t, heq.trans ht, hindexed, hstore, hcap.trans h.capacity, ?_⟩
  rw [← hindexed.length_entries, hstore]
  exact Lru.length_store_le hlen key value

theorem Represents.clear (h : s.Represents cap l) : s.clear.Represents cap [] :=
  ⟨⟨.nil, .nil, nofun, fun k it => by simp [LruCache.clear]⟩, rfl, h.capacity, Nat.zero_le _⟩

end Operations

section Calls

theorem Represents.mem_keys (h : s.Represents cap l) (key : K) : key ∈ s.map ↔ key ∈ Lru.keys l := by
  rw [h.indexed.mem_map, ← keys_entries, h.entries]

theorem Represents.find_eq (h : s.Represents cap l) (hn : n ∈ s.list) :
    Lru.find n.key l = some (n.key, n.value) := by
  rw [← h.entries, h.indexed.find_eq hn]

theorem Represents.find_eq_none (h : s.Represents cap l) {key : K} (hk : key ∉ s.map) : Lru.find key l = none := by
  rw [← h.entries, h.indexed.find_eq_none hk]

/-- The iterator in `_map` still leads to the node that was moved. -/
theorem Represents.second_fronted (h : s.Represents cap l) (hn : n ∈ s.list) :
    (s.fronted n).second n.key = .ok (some n.address) ∧ (s.fronted n).node? (some n.address) = some n :=
  ⟨h.indexed.second_eq hn, (h.fronted hn).indexed.node_eq List.mem_cons_self⟩

theorem Represents.get (h : s.Represents cap l) (key : K) : ∃ t, s.call (.get key) =
    .ok ((reference cap l (.get key)).1, t) ∧ t.Represents cap (reference cap l (.get key)).2 := by
  by_cases hk : key ∈ s.map
  · obtain ⟨n, hn, rfl⟩ := h.indexed.exists_node hk
    obtain ⟨hsecond, hnode⟩ := h.second_fronted hn
    refine ⟨s.fronted n, ?_, ?_⟩
    · simp only [LruCache.call, LruCache.get, hk, if_true, h.indexed.second_eq hn, h.indexed.spliceFront_eq hn,
        hsecond, deref, hnode, ok_bind, reference, h.find_eq hn]
    · rw [get_snd]
      exact h.fronted hn
  · refine ⟨s, ?_, ?_⟩
    · simp only [LruCache.call, LruCache.get, hk, if_false, ok_bind, reference, h.find_eq_none hk]
    · simpa only [reference, h.find_eq_none hk] using h

theorem Represents.getIter (h : s.Represents cap l) (key : K) : ∃ t, s.call (.getIter key) =
    .ok ((reference cap l (.getIter key)).1, t) ∧ t.Represents cap (reference cap l (.getIter key)).2 := by
  by_cases hk : key ∈ s.map
  · obtain ⟨n, hn, rfl⟩ := h.indexed.exists_node hk
    obtain ⟨hsecond, hnode⟩ := h.second_fronted hn
    refine ⟨s.fronted n, ?_, h.fronted hn⟩
    simp only [LruCache.call, LruCache.getIter, hk, if_true, h.indexed.second_eq hn, h.indexed.spliceFront_eq hn,
      hsecond, ok_bind, entryAt, hnode, reference, h.find_eq hn, Option.map_some]
  · refine ⟨s, ?_, ?_⟩
    · simp [LruCache.call, LruCache.getIter, hk, reference, h.find_eq_none hk, entryAt, node?]
    · simpa only [reference, Lru.toFront, h.find_eq_none hk] using h

theorem Represents.find (h : s.Represents cap l) (key : K) :
    s.call (.find key) = .ok ((reference cap l (.find key)).1, s) := by
  by_cases hk : key ∈ s.map
  · obtain ⟨n, hn, rfl⟩ := h.indexed.exists_node hk
    simp only [LruCache.call, LruCache.find, hk, if_true, h.indexed.second_eq hn, ok_bind, entryAt,
      h.indexed.node_eq hn, reference, h.find_eq hn, Option.map_some]
  · simp [LruCache.call, LruCache.find, hk, reference, h.find_eq_none hk, entryAt, node?]

theorem Represents.call (h : s.Represents cap l) (hop : ∀ key, op = .erase key → key ∉ s.map) :
    ∃ t, s.call op = .ok ((reference cap l op).1, t) ∧ t.Represents cap (reference cap l op).2 := by
  cases op with
  | put key value =>
    obtain ⟨t, ht, hrep⟩ := h.put key value
    exact ⟨t, by rw [LruCache.call, ht, ok_bind]; rfl, hrep⟩
  | get key => exact h.get key
  | getIter key => exact h.getIter key
  | find key => exact ⟨s, h.find key, h⟩
  | existsKey key =>
    refine ⟨s, ?_, h⟩
    simp [LruCache.call, reference, LruCache.existsKey, h.mem_keys]
  | erase key =>
    have hk := hop key rfl
    have hkeys : key ∉ Lru.keys l := by rwa [← h.mem_keys]
    refine ⟨s, ?_, ?_⟩
    · simp [LruCache.call, LruCache.erase, hk, reference, hkeys]
    · rw [reference, Lru.remove_eq_self hkeys]
      exact h
  | clear => exact ⟨s.clear, rfl, h.clear⟩

/-- `erase` of a key that is there dereferences an iterator to an entry that is gone. -/
theorem call_erase_present {key : K} (hk : key ∈ s.map) : s.call (.erase key) = .error .invalidIterator := by
  simp [LruCache.call, LruCache.erase, hk, second, mapErase]

end Calls

section Runs

/-- The calls go through, answer like the reference and leave its entries behind;
and an entry that a call other than `erase` and `clear` takes out was used less
recently than as many other keys as the capacity. -/
structure RefinesLru (cap : ℕ) (ops : List (Op K V)) : Prop where
  refines : ∃ s, runAll step (create cap, []) ops = .ok (s, (refRun cap ops).2) ∧
    s.Represents cap (refRun cap ops).1
  evicts : ∀ pre op post s t, ops = pre ++ op :: post →
    runAll step (create cap, []) pre = .ok s → step s op = .ok t →
    ∀ x ∈ Lru.keys s.1.entries, x ∉ Lru.keys t.1.entries → op ≠ .erase x → op ≠ .clear →
      ∃ later, LastUse x pre later ∧ cap ≤ (othersUsed x (later ++ [op])).length

def ErasesNothing (cap : ℕ) (ops : List (Op K V)) : Prop :=
  Along step (fun s op => ∀ key, op = .erase key → key ∉ s.1.map) (create cap, []) ops

theorem represents_create (cap : ℕ) : (create cap : LruCache K V).Represents cap [] :=
  ⟨indexed_create cap, rfl, rfl, Nat.zero_le _⟩

theorem step_represents {x : LruCache K V × List (Answer K V)} {y : List (K × V) × List (Answer K V)}
    (h : x.1.Represents cap y.1 ∧ x.2 = y.2) (hop : ∀ key, op = .erase key → key ∉ x.1.map) :
    ∃ z, step x op = .ok z ∧ z.1.Represents cap (refStep cap y op).1 ∧ z.2 = (refStep cap y op).2 := by
  obtain ⟨t, ht, hrep⟩ := h.1.call hop
  exact ⟨(t, x.2 ++ [(reference cap y.1 op).1]), by rw [step, ht, ok_bind], hrep, by rw [h.2, refStep]⟩

theorem run_represents (h : ErasesNothing cap ops) : ∃ z, runAll step (create cap, []) ops = .ok z ∧
    z.1.Represents cap (refRun cap ops).1 ∧ z.2 = (refRun cap ops).2 :=
  Along.simulates (R := fun x (y : List (K × V) × List (Answer K V)) => x.1.Represents cap y.1 ∧ x.2 = y.2) h
    (fun _ _ _ => step_represents) ⟨represents_create cap, rfl⟩

theorem run_eq (h : ErasesNothing cap ops) {z : LruCache K V × List (Answer K V)}
    (hz : runAll step (create cap, []) ops = .ok z) : z.1.entries = (refRun cap ops).1 := by
  obtain ⟨z', hz', hrep, -⟩ := run_represents h
  obtain rfl := Except.ok.inj (hz.symm.trans hz')
  exact hrep.entries

theorem refines_lru_iff (cap : ℕ) (ops : List (Op K V)) : RefinesLru cap ops ↔ ErasesNothing cap ops := by
  constructor
  · rintro h pre op post z rfl hpre key rfl hk
    obtain ⟨s, hs, -⟩ := h.refines
    have herror : step z (.erase key) = .error .invalidIterator := by rw [step, call_erase_present hk, error_bind]
    rw [runAll_append hpre, runAll_cons_error herror] at hs
    cases hs
  · intro h
    refine ⟨?_, ?_⟩
    · obtain ⟨⟨s, answers⟩, hs, hrep, rfl⟩ := run_represents h
      exact ⟨s, hs, hrep⟩
    · rintro pre op post z z' rfl hpre hz' x hx hout herase hclear
      have hsnoc : ErasesNothing cap (pre ++ [op]) := by
        rw [← List.singleton_append, ← List.append_assoc] at h
        exact Along.of_append h
      have hrun : runAll step (create cap, []) (pre ++ [op]) = .ok z' := by
        rw [runAll_append hpre, runAll_cons hz', runAll_nil]
      rw [run_eq (Along.of_append hsnoc) hpre] at hx
      rw [run_eq hsnoc hrun] at hout
      exact evicted_after hx hout herase hclear

/-- `erase` of the key that was just put. -/
theorem erase_present_invalid : runAll step (create 1, []) [Op.put 7 777, .erase 7] = .error .invalidIterator ∧
    ¬ RefinesLru 1 [Op.put 7 777, .erase 7] := by
  have hfault : runAll step (create 1, []) [Op.put 7 777, .erase 7] = .error .invalidIterator := rfl
  refine ⟨hfault, fun h => ?_⟩
  obtain ⟨s, hs, -⟩ := h.refines
  rw [hfault] at hs
  cases hs

end Runs

end CppBase.Utility.LruCache
