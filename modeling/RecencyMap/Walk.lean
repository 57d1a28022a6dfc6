import RecencyMap.Lru

/-!
# Double-ended walks

A walk over a recency list holds a front slot, a back slot and whether the two ends have met.
Each step reads the arena's links as they are at that moment, so a walk used after the map
changed follows the new links from where it stands. Stepping from the front marks the walk
done when the front reaches the back, otherwise advances the front along `next`; stepping
from the back is symmetric, towards the head.
-/

namespace RecencyMap

/-- A double-ended walk between two slots. -/
structure Walk where
  front : Slot
  back : Slot
  done : Bool
  deriving DecidableEq, Repr

namespace Walk

variable {κ ν : Type}

/-- A walk from `front` to `back`; it is done at once when either end names no cell. -/
def between (front back : Slot) : Walk :=
  { front := front, back := back, done := front == noSlot || back == noSlot }

/-- The entry at `s`, read key first. -/
def entryAt (a : Arena κ ν) (s : Slot) : Except ArenaFault (κ × ν) := do
  let k ← a.key? s
  let v ← a.value? s
  return (k, v)

/-- Step from the front: the walk after the step, and the entry stepped over or `none` when
the walk was done. The walk moves even when reading the entry then faults. -/
def next (w : Walk) (a : Arena κ ν) : Walk × Except ArenaFault (Option (κ × ν)) :=
  if w.done then (w, .ok none)
  else
    let s := w.front
    let moved : Except ArenaFault Walk :=
      if s == w.back then .ok { w with done := true }
      else (fun n => { w with front := n.getD noSlot }) <$> a.next? s
    match moved with
    | .error e => (w, .error e)
    | .ok w' => (w', some <$> entryAt a s)

/-- Step from the back: `next` with the roles of `front` and `back`, and of `next` and
`prev`, swapped. -/
def nextBack (w : Walk) (a : Arena κ ν) : Walk × Except ArenaFault (Option (κ × ν)) :=
  if w.done then (w, .ok none)
  else
    let s := w.back
    let moved : Except ArenaFault Walk :=
      if s == w.front then .ok { w with done := true }
      else (fun p => { w with back := p.getD noSlot }) <$> a.prev? s
    match moved with
    | .error e => (w, .error e)
    | .ok w' => (w', some <$> entryAt a s)

end Walk

namespace Lru

variable {ι κ ν : Type}

/-- A walk over the whole map, from most to least recent. -/
def walk (m : Lru ι κ ν) : Walk :=
  Walk.between (m.arena.head.getD noSlot) (m.arena.tail.getD noSlot)

end Lru

end RecencyMap
