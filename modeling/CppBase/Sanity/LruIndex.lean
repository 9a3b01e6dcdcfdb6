import CppBase.Lib.Lru
import CppBase.Spec.LruCache

/-! `_list` and `_map` describe one list of entries, and what each operation
does to it. -/

namespace CppBase.Utility.LruCache

open CppBase.Lib

variable {K V : Type}

def entries (s : LruCache K V) : List (K × V) := s.list.map fun n => (n.key, n.value)

theorem keys_entries (s : LruCache K V) : Lru.keys s.entries = s.list.map Node.key := by
  simp [Lru.keys, entries]

variable [DecidableEq K] {s t : LruCache K V} {k : K} {n m : Node K V}

structure Indexed (s : LruCache K V) : Prop where
  addresses : (s.list.map Node.address).Nodup
  keys : (s.list.map Node.key).Nodup
  fresh : ∀ n ∈ s.list, n.address < s.nextAddress
  index : ∀ k it, s.map.lookup k = some it ↔ ∃ n ∈ s.list, n.key = k ∧ it = some n.address

theorem indexed_create (capacity : ℕ) : (create capacity : LruCache K V).Indexed :=
  ⟨.nil, .nil, nofun, fun k it => by simp [create]⟩

section Lookup

theorem Indexed.mem_map (h : s.Indexed) : k ∈ s.map ↔ k ∈ s.list.map Node.key := by
  rw [← AList.lookup_isSome, Option.isSome_iff_exists, List.mem_map]
  constructor
  · rintro ⟨it, hit⟩
    obtain ⟨n, hn, hk, -⟩ := (h.index k it).mp hit
    exact ⟨n, hn, hk⟩
  · rintro ⟨n, hn, hk⟩
    exact ⟨_, (h.index k _).mpr ⟨n, hn, hk, rfl⟩⟩

theorem Indexed.size_eq (h : s.Indexed) : s.size = s.list.length := by
  have hperm : s.map.keys.Perm (s.list.map Node.key) := by
    rw [List.perm_ext_iff_of_nodup s.map.keys_nodup h.keys]
    intro k
    rw [← AList.mem_keys, h.mem_map]
  rw [size, hperm.length_eq, List.length_map]

theorem Indexed.length_entries (h : s.Indexed) : s.entries.length = s.size := by
  rw [h.size_eq, entries, List.length_map]

theorem Indexed.eq_of_key (h : s.Indexed) (hn : n ∈ s.list) (hm : m ∈ s.list) (hk : n.key = m.key) : n = m :=
  List.inj_on_of_nodup_map h.keys hn hm hk

theorem Indexed.node_eq (h : s.Indexed) (hn : n ∈ s.list) : s.node? (some n.address) = some n := by
  unfold node?
  obtain ⟨m, hm⟩ : ∃ m, s.list.find? (fun m => some m.address = some n.address) = some m := by
    rw [← Option.isSome_iff_exists, List.find?_isSome]
    exact ⟨n, hn, by simp⟩
  have haddr : m.address = n.address := by simpa using List.find?_some hm
  rw [hm, List.inj_on_of_nodup_map h.addresses (List.mem_of_find?_eq_some hm) hn haddr]

theorem Indexed.deref_eq (h : s.Indexed) (hn : n ∈ s.list) : s.deref (some n.address) = .ok n := by
  rw [deref, h.node_eq hn]

theorem Indexed.second_eq (h : s.Indexed) (hn : n ∈ s.list) : s.second n.key = .ok (some n.address) := by
  rw [second, (h.index n.key _).mpr ⟨n, hn, rfl, rfl⟩]

theorem Indexed.find_eq (h : s.Indexed) (hn : n ∈ s.list) : Lru.find n.key s.entries = some (n.key, n.value) := by
  cases hf : Lru.find n.key s.entries with
  | none =>
    rw [Lru.find_eq_none, keys_entries] at hf
    exact absurd (List.mem_map_of_mem hn) hf
  | some e =>
    obtain ⟨m, hm, rfl⟩ := List.mem_map.mp (List.mem_of_find?_eq_some hf)
    rw [h.eq_of_key hm hn (Lru.key_of_find hf)]

theorem Indexed.exists_node (h : s.Indexed) (hk : k ∈ s.map) : ∃ n ∈ s.list, n.key = k :=
  List.mem_map.mp (h.mem_map.mp hk)

theorem Indexed.find_eq_none (h : s.Indexed) (hk : k ∉ s.map) : Lru.find k s.entries = none := by
  rwa [Lru.find_eq_none, keys_entries, ← h.mem_map]

end Lookup

section Lists

def others (s : LruCache K V) (k : K) : List (Node K V) := s.list.filter fun n => n.key ≠ k

theorem entries_others (s : LruCache K V) (k : K) :
    (s.others k).map (fun n => (n.key, n.value)) = Lru.remove k s.entries := by
  rw [others, Lru.remove, entries, List.filter_map]
  rfl

theorem Indexed.filter_address (h : s.Indexed) (hn : n ∈ s.list) :
    (s.list.filter fun m => some m.address ≠ some n.address) = s.others n.key := by
  refine List.filter_congr fun m hm => ?_
  have hiff : m.address = n.address ↔ m.key = n.key :=
    ⟨fun ha => by rw [List.inj_on_of_nodup_map h.addresses hm hn ha], fun hk => by rw [h.eq_of_key hm hn hk]⟩
  simp [hiff]

theorem mem_others : m ∈ s.others k ↔ m ∈ s.list ∧ m.key ≠ k := by
  simp [others]

theorem Indexed.perm (h : s.Indexed) {l : List (Node K V)} (hl : l.Perm s.list) : { s with list := l }.Indexed :=
  ⟨(hl.map _).nodup_iff.mpr h.addresses, (hl.map _).nodup_iff.mpr h.keys, fun n hn => h.fresh n (hl.subset hn),
    fun k it => by simpa only [hl.mem_iff] using h.index k it⟩

theorem Indexed.perm_front (h : s.Indexed) (hn : n ∈ s.list) : (n :: s.others n.key).Perm s.list := by
  have hnodup : (n :: s.others n.key).Nodup := by
    refine List.nodup_cons.mpr ⟨by simp [mem_others], ?_⟩
    exact (List.Nodup.of_map _ h.keys).filter _
  rw [List.perm_ext_iff_of_nodup hnodup (List.Nodup.of_map _ h.keys)]
  intro m
  rw [List.mem_cons, mem_others]
  constructor
  · rintro (rfl | ⟨hm, -⟩)
    · exact hn
    · exact hm
  · intro hm
    by_cases hk : m.key = n.key
    · exact Or.inl (h.eq_of_key hm hn hk)
    · exact Or.inr ⟨hm, hk⟩

/-- A key taken out of both containers. -/
theorem Indexed.removed (h : s.Indexed) (k : K) : { s with list := s.others k, map := s.map.erase k }.Indexed := by
  have hsub : (s.others k).Sublist s.list := List.filter_sublist
  refine ⟨h.addresses.sublist (hsub.map _), h.keys.sublist (hsub.map _), fun n hn => h.fresh n (hsub.subset hn), ?_⟩
  intro k' it
  show (s.map.erase k).lookup k' = some it ↔ ∃ n ∈ s.others k, n.key = k' ∧ it = some n.address
  by_cases hk : k' = k
  · subst hk
    rw [AList.lookup_erase]
    constructor
    · rintro ⟨⟩
    · rintro ⟨n, hn, hk, -⟩
      exact absurd hk (mem_others.mp hn).2
  · rw [AList.lookup_erase_ne hk, h.index]
    constructor
    · rintro ⟨n, hn, rfl, hit⟩
      exact ⟨n, mem_others.mpr ⟨hn, hk⟩, rfl, hit⟩
    · rintro ⟨n, hn, hrest⟩
      exact ⟨n, (mem_others.mp hn).1, hrest⟩

/-- A new node for a key, in place of the one it had. -/
theorem Indexed.inserted (h : s.Indexed) (k : K) (v : V) {m : AList fun _ : K => ListIterator}
    (hm : ∀ k', k' ≠ k → m.lookup k' = s.map.lookup k') :
    (LruCache.mk (⟨s.nextAddress, k, v⟩ :: s.others k) (m.insert k (some s.nextAddress)) s.capacity
      (s.nextAddress + 1)).Indexed := by
  have hrem := h.removed k
  have hlt : ∀ n ∈ s.others k, n.address < s.nextAddress := hrem.fresh
  refine ⟨?_, ?_, ?_, ?_⟩
  · refine List.nodup_cons.mpr ⟨fun hmem => ?_, hrem.addresses⟩
    obtain ⟨n, hn, ha⟩ := List.mem_map.mp hmem
    exact absurd (hlt n hn) (by simp [ha])
  · refine List.nodup_cons.mpr ⟨fun hmem => ?_, hrem.keys⟩
    obtain ⟨n, hn, hk⟩ := List.mem_map.mp hmem
    exact (mem_others.mp hn).2 hk
  · rintro n hn
    rcases List.mem_cons.mp hn with rfl | hn
    · exact Nat.lt_succ_self _
    · exact (hlt n hn).trans (Nat.lt_succ_self _)
  · intro k' it
    show (m.insert k (some s.nextAddress)).lookup k' = some it ↔ _
    by_cases hk : k' = k
    · subst hk
      rw [AList.lookup_insert]
      constructor
      · rintro ⟨⟩
        exact ⟨_, List.mem_cons_self, rfl, rfl⟩
      · rintro ⟨n, hn, hk, rfl⟩
        rcases List.mem_cons.mp hn with rfl | hn
        · rfl
        · exact absurd hk (mem_others.mp hn).2
    · rw [AList.lookup_insert_ne hk, hm k' hk, ← AList.lookup_erase_ne hk]
      refine (hrem.index k' it).trans ?_
      constructor
      · rintro ⟨n, hn, hrest⟩
        exact ⟨n, List.mem_cons_of_mem _ hn, hrest⟩
      · rintro ⟨n, hn, hk', hit⟩
        rcases List.mem_cons.mp hn with rfl | hn
        · exact absurd hk'.symm hk
        · exact ⟨n, hn, hk', hit⟩

theorem others_getLast {l : List (Node K V)} {last : Node K V} (hs : s.list = l ++ [last])
    (h : (s.list.map Node.key).Nodup) : s.others last.key = l := by
  rw [hs, List.map_append, List.nodup_append] at h
  rw [others, hs, List.filter_append, List.filter_eq_self.mpr, List.filter_cons_of_neg (by simp)]
  · simp
  · intro n hn
    simpa using h.2.2 n.key (List.mem_map_of_mem hn) last.key (by simp)

end Lists

end CppBase.Utility.LruCache
