import Std.Data.HashMap
import Std.Data.TreeMap
import RecencyMap.Arena

/-!
# Key indexes

A recency map finds the slot of a key through an index. Two kinds serve: a hash map, where
keys are the same when `==` says so, and a search tree under a comparator, where keys are
the same when they compare `.eq` and which can also list its keys in order.
-/

namespace RecencyMap

/-- What a recency map needs from the structure that finds a key's slot. -/
class KeyIndex (ι : Type) (κ : outParam Type) where
  /-- The slot recorded for a key equivalent to `k`. -/
  find? : ι → κ → Option Slot
  /-- Record `s` for `k`, replacing any equivalent key and its slot. -/
  insert : ι → κ → Slot → ι
  /-- Forget the key equivalent to `k`. -/
  erase : ι → κ → ι
  /-- How many keys are recorded. -/
  count : ι → Nat

instance {κ : Type} [BEq κ] [Hashable κ] : KeyIndex (Std.HashMap κ Slot) κ where
  find? m k := m[k]?
  insert m k s := m.insert k s
  erase m k := m.erase k
  count m := m.size

instance {κ : Type} {cmp : κ → κ → Ordering} : KeyIndex (Std.TreeMap κ Slot cmp) κ where
  find? t k := t[k]?
  insert t k s := t.insert k s
  erase t k := t.erase k
  count t := t.size

/-- An index of either kind, chosen when a map is built. -/
inductive SomeIndex (κ : Type) [BEq κ] [Hashable κ] where
  | hashed (m : Std.HashMap κ Slot)
  | ordered (cmp : κ → κ → Ordering) (t : Std.TreeMap κ Slot cmp)

namespace SomeIndex

variable {κ : Type} [BEq κ] [Hashable κ]

/-- An empty hash index. -/
def emptyHashed : SomeIndex κ := .hashed {}

/-- An empty search-tree index under `cmp`. -/
def emptyOrdered (cmp : κ → κ → Ordering) : SomeIndex κ := .ordered cmp {}

instance : KeyIndex (SomeIndex κ) κ where
  find?
    | .hashed m, k => KeyIndex.find? m k
    | .ordered _ t, k => KeyIndex.find? t k
  insert
    | .hashed m, k, s => .hashed (KeyIndex.insert m k s)
    | .ordered c t, k, s => .ordered c (KeyIndex.insert t k s)
  erase
    | .hashed m, k => .hashed (KeyIndex.erase m k)
    | .ordered c t, k => .ordered c (KeyIndex.erase t k)
  count
    | .hashed m => KeyIndex.count m
    | .ordered _ t => KeyIndex.count t

end SomeIndex

end RecencyMap
