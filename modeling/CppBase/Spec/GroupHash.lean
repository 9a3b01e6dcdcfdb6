import CppBase.Lib.Bytes
import Mathlib.Data.Finset.Sort

/-! The choice of a group for a channel, `cpp-examples/yy/example_hash.cpp` and
`example_hash_2_file.cpp`. -/

namespace CppBase.CppExamples.GroupHash

section Hashes

def hashInt (key : UInt32) : UInt32 :=
  let key := ~~~key + (key <<< 15)
  let key := key ^^^ (key >>> 12)
  let key := key + (key <<< 2)
  let key := key ^^^ (key >>> 4)
  let key := key * 2057
  key ^^^ (key >>> 16)

/-- `promote` takes a `char` to `int`, with or without its sign. A string ends at its first NUL. -/
def hashString (promote : UInt8 → BitVec 32) (hash : UInt32) (str : List UInt8) : UInt32 :=
  let seed := 131
  (str.takeWhile (· ≠ 0)).foldl (fun hash c => hash * seed + UInt32.ofBitVec (promote c)) hash &&& 0x7FFFFFFF

end Hashes

section Groups

variable (promote : UInt8 → BitVec 32)

def hashRound (channel : List UInt8) (best : UInt32 × UInt32) (group : UInt32) : UInt32 × UInt32 :=
  let h := hashInt (hashString promote group channel)
  if h > best.1 then (h, group) else best

/-- A `std::set` is iterated in increasing order. -/
def hashChannelGroup (channel : List UInt8) (groups : Finset UInt32) : UInt32 :=
  ((groups.sort (· ≤ ·)).foldl (hashRound promote channel) (0, 0)).2

/-- What `main` of `example_hash_2_file.cpp` writes for a line: the old and the new group,
if they differ. -/
def moved (line : List UInt8) : Option (UInt32 × UInt32) :=
  let groups : Finset UInt32 := {0, 1, 2, 3, 4}
  let newGroups : Finset UInt32 := {0, 1, 2, 3, 4, 5}
  let oldGroup := hashChannelGroup promote line groups
  let newGroup := hashChannelGroup promote line newGroups
  if oldGroup ≠ newGroup then some (oldGroup, newGroup) else none

end Groups

end CppBase.CppExamples.GroupHash
