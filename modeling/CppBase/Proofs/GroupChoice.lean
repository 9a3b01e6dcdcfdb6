import CppBase.Lib.Scan
import CppBase.Spec.GroupHash
import CppBase.Spec.UrlCodec

/-! The group of a channel is one of the groups, and only moves to a new group. Only one
key is mixed to zero, where the loop starts, and it does not fit into 31 bits. -/

namespace CppBase.CppExamples.GroupHash

open CppBase.Lib CppBase.Utility.UrlCodec

section Mixing

variable {k : UInt32}

theorem eq_zero_of_xor_shiftRight {s : UInt32} (hs : 0 < s.toNat % 32) (h : k ^^^ (k >>> s) = 0) : k = 0 := by
  have heq : k = k >>> s := UInt32.xor_eq_zero_iff.mp h
  have hnat : k.toNat = k.toNat / 2 ^ (s.toNat % 32) := by
    conv_lhs => rw [heq]
    rw [UInt32.toNat_shiftRight, Nat.shiftRight_eq_div_pow]
  apply UInt32.toNat_inj.mp
  by_contra hne
  have hlt := Nat.div_lt_self (Nat.pos_of_ne_zero hne) (Nat.one_lt_two_pow hs.ne')
  omega

theorem eq_of_mul_eq {a b c : UInt32} (hinv : a * b = 1) (h : k * a = c) : k = c * b := by
  rw [← h, UInt32.mul_assoc, hinv, UInt32.mul_one]

theorem mix_first (k : UInt32) : ~~~k + (k <<< 15) = k * 32767 - 1 := by
  apply UInt32.toNat_inj.mp
  have := k.toNat_lt
  rw [UInt32.toNat_add, UInt32.toNat_not, UInt32.toNat_shiftLeft, UInt32.toNat_sub, UInt32.toNat_mul]
  simp only [UInt32.reduceToNat, Nat.shiftLeft_eq, UInt32.size, Nat.reduceMod, Nat.reducePow]
  omega

theorem mix_third (k : UInt32) : k + (k <<< 2) = k * 5 := by
  apply UInt32.toNat_inj.mp
  rw [UInt32.toNat_add, UInt32.toNat_shiftLeft, UInt32.toNat_mul]
  simp only [UInt32.reduceToNat, Nat.shiftLeft_eq, Nat.reduceMod, Nat.reducePow]
  omega

/-- The steps are undone from the last to the first. -/
theorem hashInt_eq_zero (h : hashInt k = 0) : k = 0xBFFF7FFF := by
  unfold hashInt at h
  have h5 := eq_zero_of_xor_shiftRight (by decide) h
  have h4 := eq_of_mul_eq (b := 3369993785) (by decide) h5
  rw [UInt32.zero_mul] at h4
  have h3 := eq_zero_of_xor_shiftRight (by decide) h4
  rw [mix_third] at h3
  have h2 := eq_of_mul_eq (b := 3435973837) (by decide) h3
  rw [UInt32.zero_mul] at h2
  have h1 := eq_zero_of_xor_shiftRight (by decide) h2
  rw [mix_first] at h1
  have h0 : k * 32767 = 1 := by rw [UInt32.sub_eq_iff_eq_add.mp h1, UInt32.zero_add]
  exact eq_of_mul_eq (b := 0xBFFF7FFF) (by decide) h0

theorem hashString_lt (promote : UInt8 → BitVec 32) (hash : UInt32) (str : List UInt8) :
    (hashString promote hash str).toNat < 2 ^ 31 := by
  rw [hashString, UInt32.toNat_and]
  exact Nat.lt_succ_of_le Nat.and_le_right

theorem hashInt_hashString_pos (promote : UInt8 → BitVec 32) (hash : UInt32) (str : List UInt8) :
    0 < hashInt (hashString promote hash str) := by
  have hlt := hashString_lt promote hash str
  refine UInt32.pos_iff_ne_zero.mpr fun h => ?_
  rw [hashInt_eq_zero h] at hlt
  exact absurd hlt (by decide)

end Mixing

section Groups

variable (promote : UInt8 → BitVec 32) (channel : List UInt8) {G : Finset UInt32}

def weight (group : UInt32) : UInt32 := hashInt (hashString promote group channel)

theorem hashRound_eq : hashRound promote channel = keepBest (· < ·) (weight promote channel) := rfl

theorem chosen_hashChannelGroup (hG : G.Nonempty) :
    Chosen (weight promote channel) G (hashChannelGroup promote channel G) := by
  rw [hashChannelGroup, hashRound_eq]
  exact chosen_foldl (Finset.pairwise_sort G _) (fun _ => Finset.mem_sort _) hG
    (fun g _ => hashInt_hashString_pos promote g channel) 0

/-- The group of a channel is one of the groups; it stays when another group leaves, and
one that comes takes the channel over or changes nothing. -/
theorem hashChannelGroup_stable (hG : G.Nonempty) :
    hashChannelGroup promote channel G ∈ G ∧
      (∀ g ∉ G, hashChannelGroup promote channel (insert g G) = hashChannelGroup promote channel G ∨
        hashChannelGroup promote channel (insert g G) = g) ∧
      ∀ g ∈ G, g ≠ hashChannelGroup promote channel G →
        hashChannelGroup promote channel (G.erase g) = hashChannelGroup promote channel G := by
  have hchosen := chosen_hashChannelGroup promote channel hG
  refine ⟨hchosen.mem, fun g _ => ?_, fun g _ hne => ?_⟩
  · have hnew := chosen_hashChannelGroup promote channel (Finset.insert_nonempty g G)
    exact (hchosen.insert g).imp hnew.unique hnew.unique
  · have herase := hchosen.erase hne
    exact (chosen_hashChannelGroup promote channel ⟨_, herase.mem⟩).unique herase

theorem hashChannelGroup_stable_main :
    let groups : Finset UInt32 := {0, 1, 2, 3, 4}
    let chosen := hashChannelGroup ofChar (ascii "2806828531") groups
    chosen ∈ groups ∧
      (hashChannelGroup ofChar (ascii "2806828531") (insert 5 groups) = chosen ∨
        hashChannelGroup ofChar (ascii "2806828531") (insert 5 groups) = 5) ∧
      (3 ≠ chosen → hashChannelGroup ofChar (ascii "2806828531") (groups.erase 3) = chosen) :=
  have h := hashChannelGroup_stable ofChar (ascii "2806828531") (G := {0, 1, 2, 3, 4}) (Finset.insert_nonempty 0 _)
  ⟨h.1, h.2.1 5 (by decide), h.2.2 3 (by decide)⟩

/-- `main` only reports lines that the new group took over. -/
theorem moved_to_new {line : List UInt8} {oldGroup newGroup : UInt32}
    (h : moved promote line = some (oldGroup, newGroup)) :
    oldGroup ∈ ({0, 1, 2, 3, 4} : Finset UInt32) ∧ newGroup = 5 := by
  have hold := chosen_hashChannelGroup promote line (G := {0, 1, 2, 3, 4}) (Finset.insert_nonempty 0 _)
  have hnew := chosen_hashChannelGroup promote line (G := {0, 1, 2, 3, 4, 5}) (Finset.insert_nonempty 0 _)
  have hset : ({0, 1, 2, 3, 4, 5} : Finset UInt32) = insert 5 {0, 1, 2, 3, 4} := by decide
  simp only [moved] at h
  split_ifs at h with hne
  obtain ⟨rfl, rfl⟩ := Prod.mk.inj (Option.some.inj h)
  refine ⟨hold.mem, ?_⟩
  rw [hset] at hnew hne ⊢
  obtain hsame | htaken := hold.insert 5
  · exact absurd (hsame.unique hnew) hne
  · exact hnew.unique htaken

end Groups

end CppBase.CppExamples.GroupHash
