import RecencyMap.Session.Arena
import RecencyMap.Proofs.Neighbours

/-!
# The abstract recency sequence

The arena as its documentation describes it, with no cells and no links: the live entries as a
list, most recent first, each with its slot, payload and stamp; a stack of freed slots, the
most recently freed on top; the number of slots ever allocated; and a generation counter that
every structural change bumps and that stamps an entry when it comes to the front. Neighbours
are positions in the list, a new entry takes the top of the stack or else the next unused slot,
and a dead slot is a fault, as in the arena.
-/

namespace RecencyMap

/-- One live entry of the sequence: its slot, its payload, and the generation at which it last
came to the front. -/
structure Recency.Entry (κ ν : Type) where
  slot : Slot
  key : κ
  value : ν
  seq : Nat

/-- The abstract state of an arena. -/
@[ext] structure Recency (κ ν : Type) where
  entries : List (Recency.Entry κ ν)
  free : List Slot
  allocated : Nat
  generation : Nat
  capacity : Nat

namespace Recency

variable {κ ν : Type}

/-- The empty sequence with room for `capacity` entries. -/
def empty (capacity : Nat) : Recency κ ν :=
  { entries := [], free := [], allocated := 0, generation := 0, capacity := capacity }

/-- The slots of the sequence, most recent first. -/
def slots (r : Recency κ ν) : List Slot :=
  r.entries.map Entry.slot

/-- The entry at `s`, if `s` is live. -/
def find? (r : Recency κ ν) (s : Slot) : Option (Entry κ ν) :=
  r.entries.find? fun e => e.slot == s

/-- The entry at `s`, or the fault of `use` on a dead slot. -/
def entry (r : Recency κ ν) (use : SlotUse) (s : Slot) : Except ArenaFault (Entry κ ν) :=
  match r.find? s with
  | some e => .ok e
  | none => .error (.deadSlot use s)

/-- The entries without the one at `s`. -/
def without (r : Recency κ ν) (s : Slot) : List (Entry κ ν) :=
  r.entries.filter fun e => e.slot != s

def isFull (r : Recency κ ν) : Bool :=
  r.entries.length == r.capacity

def live (r : Recency κ ν) (s : Slot) : Bool :=
  (r.find? s).isSome

/-- Put a new entry in front, in the most recently freed slot, else in the next slot never
used. -/
def insert (r : Recency κ ν) (k : κ) (v : ν) : Except ArenaFault (Slot × Recency κ ν) :=
  if r.isFull then .error .full
  else
    let s := r.free.headD r.allocated
    let gen := r.generation + 1
    .ok (s, { r with
      entries := { slot := s, key := k, value := v, seq := gen } :: r.entries
      free := r.free.tail
      allocated := if r.free = [] then r.allocated + 1 else r.allocated
      generation := gen })

/-- Bring the entry at `s` to the front with a fresh stamp. -/
def moveToHead (r : Recency κ ν) (s : Slot) : Except ArenaFault (Recency κ ν) := do
  let e ← r.entry .moveToHead s
  let gen := r.generation + 1
  return { r with entries := { e with seq := gen } :: r.without s, generation := gen }

/-- Take out the entry at `s`, push `s` on the free stack, and hand back the payload with the
neighbours `s` had towards the tail and towards the head. -/
def remove (r : Recency κ ν) (s : Slot) :
    Except ArenaFault (Arena.Removal κ ν × Recency κ ν) := do
  let e ← r.entry .remove s
  return ({ key := e.key, value := e.value, next := nextIn r.slots s, prev := prevIn r.slots s },
    { r with entries := r.without s, free := s :: r.free, generation := r.generation + 1 })

/-- Remove the last entry. -/
def evictTail (r : Recency κ ν) : Except ArenaFault ((κ × ν) × Recency κ ν) :=
  match r.entries.getLast? with
  | none => .error .empty
  | some e => do
    let (x, r) ← r.remove e.slot
    return ((x.key, x.value), r)

/-- Store `v` at `s` and hand back the value it replaces. -/
def replace (r : Recency κ ν) (s : Slot) (v : ν) : Except ArenaFault (ν × Recency κ ν) := do
  let e ← r.entry .replace s
  return (e.value, { r with
    entries := r.entries.map fun x => if x.slot = s then { x with value := v } else x })

def next? (r : Recency κ ν) (s : Slot) : Except ArenaFault (Option Slot) :=
  (fun _ => nextIn r.slots s) <$> r.entry .next s

def prev? (r : Recency κ ν) (s : Slot) : Except ArenaFault (Option Slot) :=
  (fun _ => prevIn r.slots s) <$> r.entry .prev s

def key? (r : Recency κ ν) (s : Slot) : Except ArenaFault κ :=
  Entry.key <$> r.entry .key s

def value? (r : Recency κ ν) (s : Slot) : Except ArenaFault ν :=
  Entry.value <$> r.entry .value s

def seq? (r : Recency κ ν) (s : Slot) : Except ArenaFault Nat :=
  Entry.seq <$> r.entry .seq s

def age? (r : Recency κ ν) (s : Slot) : Except ArenaFault Nat :=
  (r.generation - ·) <$> r.seq? s

/-- The slots and keys from most to least recent. -/
def order (r : Recency κ ν) : List (Slot × κ) :=
  r.entries.map fun e => (e.slot, e.key)

/-- The reply of a step and the sequence after it; a sequence has no links to check, so
`validate` finds nothing. -/
def perform (r : Recency κ String) : ArenaStep κ → ArenaReply κ × Recency κ String
  | .insert k v => changed (fun (s, r) => (.slot (some s), r)) (r.insert k v)
  | .moveToHead s => changed (fun r => (.unit, r)) (r.moveToHead s)
  | .evictTail => changed (fun ((k, v), r) => (.pair k v, r)) r.evictTail
  | .remove s => changed (fun (x, r) => (.removal x, r)) (r.remove s)
  | .head => (.slot (r.slots.head?), r)
  | .tail => (.slot (r.slots.getLast?), r)
  | .next s => read .slot (r.next? s)
  | .prev s => read .slot (r.prev? s)
  | .key s => read .key (r.key? s)
  | .value s => read .value (r.value? s)
  | .seq s => read .count (r.seq? s)
  | .age s => read .count (r.age? s)
  | .replace s v => changed (fun (old, r) => (.value old, r)) (r.replace s v)
  | .live s => (.flag (r.live s), r)
  | .len => (.count r.entries.length, r)
  | .cap => (.count r.capacity, r)
  | .generation => (.count r.generation, r)
  | .full => (.flag r.isFull, r)
  | .validate => (.problem none, r)
where
  /-- A step that may change the sequence. -/
  changed {α : Type} (f : α → ArenaReply κ × Recency κ String) :
      Except ArenaFault α → ArenaReply κ × Recency κ String
    | .ok x => f x
    | .error e => (.panicked e.message, r)
  /-- A step that only reads. -/
  read {α : Type} (f : α → ArenaReply κ) : Except ArenaFault α → ArenaReply κ × Recency κ String
    | .ok x => (f x, r)
    | .error e => (.panicked e.message, r)

/-- Run a script, reporting after each step. -/
def run (r : Recency κ String) : List (ArenaStep κ) → List (ArenaReport κ)
  | [] => []
  | st :: rest =>
    let (reply, r) := r.perform st
    { reply := reply, order := r.order, generation := r.generation } :: r.run rest

end Recency

end RecencyMap
