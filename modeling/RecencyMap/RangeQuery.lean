import RecencyMap.Cursor
import RecencyMap.KeyRange

/-!
# Range queries

An ordered map can scan the keys of a range in comparator order. Two questions are asked of
a scan: which entry in it was used most recently (optionally among those satisfying a
condition), and what the entries are, in key order. The first is decided by the stamps of the
arena: the entry with the highest stamp wins, and among equal stamps the one scanned first.
-/

namespace RecencyMap

namespace Lru

variable {ι κ ν : Type} [KeyIndex ι κ]

/-- The better of the best slot so far and a candidate with stamp `q`: the candidate wins
only with a strictly higher stamp. -/
def pickNewer (best : Option (Slot × Nat)) (s : Slot) (q : Nat) : Option (Slot × Nat) :=
  match best with
  | some (_, bq) => if q > bq then some (s, q) else best
  | none => some (s, q)

/-- Among scanned keys and slots, the slot with the highest stamp whose entry satisfies
`cond`; an earlier entry keeps its place against equal stamps. -/
def mostRecentAmong (m : Lru ι κ ν) (cond : κ → ν → Bool) (entries : List (κ × Slot)) :
    Except ArenaFault (Option Slot) :=
  let rec go (best : Option (Slot × Nat)) : List (κ × Slot) → Except ArenaFault (Option (Slot × Nat))
    | [] => .ok best
    | (k, s) :: rest => do
      let v ← m.arena.value? s
      if !cond k v then go best rest
      else
        let q ← m.arena.seq? s
        go (pickNewer best s q) rest
  (·.map Prod.fst) <$> go none entries

/-- The scanned keys with their values, in scan order. -/
def valuesAmong (m : Lru ι κ ν) (entries : List (κ × Slot)) : Except ArenaFault (List (κ × ν)) :=
  entries.mapM fun (k, s) => do
    let v ← m.arena.value? s
    return (k, v)

end Lru

namespace Lru

variable {κ ν : Type} {cmp : κ → κ → Ordering}

/-- A cursor at the most recently used entry of `r` that satisfies `cond`. -/
def mostRecentInRangeWhere (m : Lru (Std.TreeMap κ Slot cmp) κ ν) (r : KeyRange κ)
    (cond : κ → ν → Bool) : Except ArenaFault (Option Cursor) := do
  let best ← m.mostRecentAmong cond (r.inTree m.index)
  return best.map m.cursorAt

/-- A cursor at the most recently used entry of `r`. -/
def mostRecentInRange (m : Lru (Std.TreeMap κ Slot cmp) κ ν) (r : KeyRange κ) :
    Except ArenaFault (Option Cursor) :=
  m.mostRecentInRangeWhere r fun _ _ => true

/-- The entries of `r` in comparator order. -/
def ascend (m : Lru (Std.TreeMap κ Slot cmp) κ ν) (r : KeyRange κ) :
    Except ArenaFault (List (κ × ν)) :=
  m.valuesAmong (r.inTree m.index)

end Lru

end RecencyMap
