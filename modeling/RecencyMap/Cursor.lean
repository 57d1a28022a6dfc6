import RecencyMap.Walk

/-!
# Cursors

A cursor points at one slot of a map. It remembers the generation at which it was made
(`minted`) and the generation at which it was made or last touched (`stamp`). A cursor reads
through its slot, so a stale cursor sees whatever now occupies that slot, or faults when the
slot is vacant. A cursor is valid while the generation still equals its stamp and its slot
is live. That is meant to say the map has not changed behind it, but a touch refreshes the stamp
whatever changed before, so a touch after a change behind the cursor's back makes it valid again.

Taking the entry under a cursor consumes the cursor and hands back a fresh one at a
neighbour. A consumed cursor, like a missing one, is `none`; using it is a fault.
-/

namespace RecencyMap

/-- A position in a map, with the generations it was made and last touched at. -/
structure Cursor where
  slot : Slot
  minted : Nat
  stamp : Nat
  deriving DecidableEq, Repr

/-- Why a cursor operation refused to run. -/
inductive CursorFault where
  /-- The cursor was consumed by a removal, or never pointed anywhere. -/
  | consumed
  /-- The arena refused the operation on the cursor's slot. -/
  | slot (fault : ArenaFault)
  deriving DecidableEq, Repr

/-- The text of a cursor fault. -/
def CursorFault.message : CursorFault → String
  | .consumed => "cache: Entry used after it was removed"
  | .slot f => f.message

/-- The cursor itself, or the fault of using a consumed one. -/
def Cursor.held? : Option Cursor → Except CursorFault Cursor
  | some c => .ok c
  | none => .error .consumed

namespace Lru

variable {ι κ ν : Type} [KeyIndex ι κ]

/-- A fresh cursor at `s`. -/
def cursorAt (m : Lru ι κ ν) (s : Slot) : Cursor :=
  { slot := s, minted := m.generation, stamp := m.generation }

/-- A cursor at the entry of `k`. -/
def entry? (m : Lru ι κ ν) (k : κ) : Option Cursor := (m.find? k).map m.cursorAt

/-- A cursor at the most recent entry. -/
def headEntry? (m : Lru ι κ ν) : Option Cursor := m.arena.head.map m.cursorAt

/-- A cursor at the least recent entry. -/
def tailEntry? (m : Lru ι κ ν) : Option Cursor := m.arena.tail.map m.cursorAt

end Lru

namespace Cursor

variable {ι κ ν : Type} [KeyIndex ι κ]

/-- Lift an arena fault into a cursor fault. -/
def onSlot {α : Type} (r : Except ArenaFault α) : Except CursorFault α :=
  r.mapError .slot

/-- The key in the cursor's slot. -/
def key (c : Cursor) (m : Lru ι κ ν) : Except CursorFault κ := onSlot (m.arena.key? c.slot)

/-- The value in the cursor's slot. -/
def value (c : Cursor) (m : Lru ι κ ν) : Except CursorFault ν := onSlot (m.arena.value? c.slot)

/-- Make the cursor's entry the most recent one and refresh the cursor's stamp. -/
def touch (c : Cursor) (m : Lru ι κ ν) : Except CursorFault (Cursor × Lru ι κ ν) := do
  let ⟨arena, index⟩ := m
  let a ← onSlot (arena.moveToHead c.slot)
  return ({ c with stamp := a.generation }, { arena := a, index := index })

/-- How many structural changes the map saw since the cursor was made. -/
def staleness (c : Cursor) (m : Lru ι κ ν) : Nat := m.generation - c.minted

/-- How many structural changes ago the cursor's entry last became the most recent. -/
def age (c : Cursor) (m : Lru ι κ ν) : Except CursorFault Nat := onSlot (m.arena.age? c.slot)

/-- Whether the map is unchanged since the cursor's stamp and its slot is live. -/
def valid (c : Option Cursor) (m : Lru ι κ ν) : Bool :=
  match c with
  | none => false
  | some c => m.generation == c.stamp && m.arena.live c.slot

/-- Step towards the tail when there is a next entry; report whether it moved. -/
def moveNext (c : Cursor) (m : Lru ι κ ν) : Except CursorFault (Bool × Cursor) := do
  match ← onSlot (m.arena.next? c.slot) with
  | some n => return (true, { c with slot := n })
  | none => return (false, c)

/-- Step towards the head when there is a previous entry; report whether it moved. -/
def movePrev (c : Cursor) (m : Lru ι κ ν) : Except CursorFault (Bool × Cursor) := do
  match ← onSlot (m.arena.prev? c.slot) with
  | some p => return (true, { c with slot := p })
  | none => return (false, c)

/-- A walk from the cursor's slot to the least recent entry. -/
def walk (c : Cursor) (m : Lru ι κ ν) : Walk :=
  Walk.between c.slot (m.arena.tail.getD noSlot)

/-- Remove the cursor's entry. The cursor is consumed; the answer carries a fresh cursor at
the entry that followed it (`towardsTail`) or preceded it, when there is one. -/
def take (c : Cursor) (m : Lru ι κ ν) (towardsTail : Bool) :
    Except CursorFault (Traced ι κ ν ((κ × ν) × Option Cursor)) := do
  let (r, m, sig) ← onSlot (m.take c.slot)
  let neighbour := if towardsTail then r.next else r.prev
  return (((r.key, r.value), neighbour.map m.cursorAt), m, sig)

end Cursor

end RecencyMap
