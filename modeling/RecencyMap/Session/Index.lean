import RecencyMap.KeyRange

/-!
# Index sessions

A session drives one key index directly and reports, after each step, how many keys it
holds. Only an ordered index answers range scans.
-/

namespace RecencyMap

/-- One step of an index script. -/
inductive IndexStep (κ : Type) where
  | lookup (k : κ)
  | insert (k : κ) (s : Slot)
  | delete (k : κ)
  | len
  | range (r : KeyRange κ) (limit : Option Nat)

/-- The reply of an index step. -/
inductive IndexReply (κ : Type) where
  | unit
  | slot (s : Option Slot)
  | count (n : Nat)
  | entries (es : List (κ × Slot))

namespace SomeIndex

variable {κ : Type} [BEq κ] [Hashable κ]

/-- The reply of a step and the index after it, or `none` for a range on a hash index. -/
def perform (ix : SomeIndex κ) : IndexStep κ → Option (IndexReply κ × SomeIndex κ)
  | .lookup k => some (.slot (KeyIndex.find? ix k), ix)
  | .insert k s => some (.unit, KeyIndex.insert ix k s)
  | .delete k => some (.unit, KeyIndex.erase ix k)
  | .len => some (.count (KeyIndex.count ix), ix)
  | .range r limit =>
    (ix.scan? r).map fun es => (.entries (match limit with
      | some n => es.take n
      | none => es), ix)

/-- Run a script, reporting each reply with the number of keys after it; `none` when some
step asks a hash index for a range. -/
def run (ix : SomeIndex κ) : List (IndexStep κ) → Option (List (IndexReply κ × Nat))
  | [] => some []
  | st :: rest => do
    let (reply, ix) ← ix.perform st
    let reports ← ix.run rest
    return (reply, KeyIndex.count ix) :: reports

end SomeIndex

end RecencyMap
