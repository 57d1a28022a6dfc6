/-!
# Slot arena

A bounded, doubly linked recency list whose cells live in one array and are named by
`Slot` handles. The list runs from the most recently used cell (the head) to the least
recently used one (the tail). A freed cell keeps only a link to the cell freed before it, so
the vacant cells form a chain through the same `next` field, from `free`; new entries take the
top of that chain before the array grows. A generation counter, bumped by every structural
change, stamps each cell when it last became the head.

Every operation that names a slot first checks that the slot is live; a dead slot is a
`ArenaFault.deadSlot` and leaves the arena untouched. `validate` makes the three walks of the
list (forward from the head, back from the tail, along the free chain) and reports the first
broken invariant.
-/

namespace RecencyMap

/-- A handle to one cell of an arena. Handles are 32-bit in the wire format. -/
abbrev Slot := Nat

/-- The handle that names no cell, `2^32 - 1`. It is never live, since an arena holds at
most `maxCapacity` cells. -/
def noSlot : Slot := 4294967295

/-- The largest capacity an arena accepts, `2^32 - 2`. -/
def maxCapacity : Nat := 4294967294

/-- The contents of a live cell: its entry, its neighbours towards the head (`prev`) and
towards the tail (`next`), and the generation at which it last became the head. -/
structure Node (κ ν : Type) where
  key : κ
  value : ν
  prev : Option Slot
  next : Option Slot
  seq : Nat

/-- The operations that fault on a dead slot, named as their fault messages name them. -/
inductive SlotUse where
  | moveToHead
  | remove
  | key
  | value
  | replace
  | next
  | prev
  | seq
  deriving DecidableEq, Repr

/-- The name a fault message gives the operation. -/
def SlotUse.label : SlotUse → String
  | .moveToHead => "MoveToHead"
  | .remove => "Remove"
  | .key => "Key"
  | .value => "Value"
  | .replace => "Replace"
  | .next => "Next"
  | .prev => "Prev"
  | .seq => "Seq"

/-- Why an arena operation refused to run. -/
inductive ArenaFault where
  /-- The operation named a slot that holds no entry. -/
  | deadSlot (use : SlotUse) (s : Slot)
  /-- An insertion into a list already at capacity. -/
  | full
  /-- An eviction from an empty list. -/
  | empty
  deriving DecidableEq, Repr

/-- The text of a fault. -/
def ArenaFault.message : ArenaFault → String
  | .deadSlot use s => s!"arena: {use.label} on dead slot {s}"
  | .full => "arena: InsertAtHead on a full list"
  | .empty => "arena: EvictTail on an empty list"

/-- The text of the fault raised when an arena is asked for a capacity outside
`[1, maxCapacity]`. -/
def capacityOutOfRange (n : Int) : String :=
  s!"arena: capacity {n} out of range [1, {maxCapacity}]"

/-- One cell of the array: a live node, or a vacant cell. A vacant cell holds no entry, no
stamp and no link towards the head; it keeps only `next`, the cell freed before it. -/
inductive Cell (κ ν : Type) where
  | live (n : Node κ ν)
  | vacant (next : Option Slot)

namespace Cell

variable {κ ν : Type}

/-- The node of a live cell. -/
def node? : Cell κ ν → Option (Node κ ν)
  | .live n => some n
  | .vacant _ => none

/-- The `next` link: towards the tail for a live cell, along the free chain for a vacant one. -/
def next : Cell κ ν → Option Slot
  | .live n => n.next
  | .vacant next => next

/-- The link towards the head, which a vacant cell does not have. -/
def prev : Cell κ ν → Option Slot
  | .live n => n.prev
  | .vacant _ => none

/-- Update the node of a live cell; a vacant cell stays as it is. -/
def map (f : Node κ ν → Node κ ν) : Cell κ ν → Cell κ ν
  | .live n => .live (f n)
  | .vacant next => .vacant next

end Cell

/-- A recency list of at most `capacity` entries over an array of cells. `free` is the most
recently freed vacant cell, the top of the free chain. -/
structure Arena (κ ν : Type) where
  cells : Array (Cell κ ν)
  free : Option Slot
  head : Option Slot
  tail : Option Slot
  size : Nat
  capacity : Nat
  generation : Nat

namespace Arena

variable {κ ν : Type}

/-- An empty arena with room for `capacity` entries. -/
def empty (capacity : Nat) : Arena κ ν :=
  { cells := #[], free := none, head := none, tail := none, size := 0,
    capacity := capacity, generation := 0 }

/-- A new empty arena, or the fault text when `capacity` lies outside `[1, maxCapacity]`. -/
def create? (capacity : Int) : Except String (Arena κ ν) :=
  if 1 ≤ capacity ∧ capacity ≤ maxCapacity then .ok (empty capacity.toNat)
  else .error (capacityOutOfRange capacity)

/-- The cell at `s`, if it is live. -/
def node? (a : Arena κ ν) (s : Slot) : Option (Node κ ν) :=
  (a.cells[s]?).bind Cell.node?

/-- Whether `s` names a live cell. -/
def live (a : Arena κ ν) (s : Slot) : Bool :=
  (a.node? s).isSome

/-- Whether the list holds `capacity` entries. -/
def isFull (a : Arena κ ν) : Bool :=
  a.size == a.capacity

/-- The live cell at `s`, or the fault of `use` on a dead slot. -/
def live? (a : Arena κ ν) (use : SlotUse) (s : Slot) : Except ArenaFault (Node κ ν) :=
  match a.node? s with
  | some n => .ok n
  | none => .error (.deadSlot use s)

/-- Update the live cell at `s`; vacant and missing cells stay as they are. -/
def modifyNode (a : Arena κ ν) (s : Slot) (f : Node κ ν → Node κ ν) : Arena κ ν :=
  { a with cells := a.cells.modify s (Cell.map f) }

/-- Point the `next` link of the cell at `s` to `t`. -/
def setNext (a : Arena κ ν) (s : Slot) (t : Option Slot) : Arena κ ν :=
  a.modifyNode s fun n => { n with next := t }

/-- Point the `prev` link of the cell at `s` to `t`. -/
def setPrev (a : Arena κ ν) (s : Slot) (t : Option Slot) : Arena κ ν :=
  a.modifyNode s fun n => { n with prev := t }

/-- Link the live cell at `s` in front of the head. -/
def linkHead (a : Arena κ ν) (s : Slot) : Arena κ ν :=
  let h := a.head
  let a := a.modifyNode s fun n => { n with prev := none, next := h }
  let a := match h with
    | some h => a.setPrev h (some s)
    | none => { a with tail := some s }
  { a with head := some s }

/-- Take the cell at `s`, whose links are those of `n`, out of the list, leaving it with no
neighbours. -/
def unlink (a : Arena κ ν) (s : Slot) (n : Node κ ν) : Arena κ ν :=
  let a := match n.prev with
    | some p => a.setNext p n.next
    | none => { a with head := n.next }
  let a := match n.next with
    | some q => a.setPrev q n.prev
    | none => { a with tail := n.prev }
  a.modifyNode s fun m => { m with prev := none, next := none }

/-- A vacant slot for a new entry: the top of the free chain, whose link becomes the new top,
else a new cell at the end. -/
def alloc (a : Arena κ ν) (k : κ) (v : ν) : Slot × Arena κ ν :=
  let fresh : Node κ ν := { key := k, value := v, prev := none, next := none, seq := 0 }
  match a.free with
  | some s =>
    (s, { a with cells := a.cells.setIfInBounds s (.live fresh),
                 free := (a.cells[s]?).bind Cell.next })
  | none => (a.cells.size, { a with cells := a.cells.push (.live fresh) })

/-- Insert an entry as the most recent one and return its slot. Faults when full. -/
def insertAtHead (a : Arena κ ν) (k : κ) (v : ν) : Except ArenaFault (Slot × Arena κ ν) :=
  if a.isFull then .error .full
  else
    let (s, a) := a.alloc k v
    let gen := a.generation + 1
    let a := { a with generation := gen }.modifyNode s fun n => { n with seq := gen }
    let a := a.linkHead s
    .ok (s, { a with size := a.size + 1 })

/-- Make the entry at `s` the most recent one; this counts as a change even at the head. -/
def moveToHead (a : Arena κ ν) (s : Slot) : Except ArenaFault (Arena κ ν) := do
  let n ← a.live? .moveToHead s
  let gen := a.generation + 1
  let a := { a with generation := gen }.modifyNode s fun m => { m with seq := gen }
  if a.head == some s then return a
  return (a.unlink s n).linkHead s

/-- What removing a cell hands back: its entry and the neighbours it had. -/
structure Removal (κ ν : Type) where
  key : κ
  value : ν
  next : Option Slot
  prev : Option Slot

/-- Remove the entry at `s`, vacating its cell and putting it on top of the free chain. -/
def remove (a : Arena κ ν) (s : Slot) : Except ArenaFault (Removal κ ν × Arena κ ν) := do
  let n ← a.live? .remove s
  let a := a.unlink s n
  let a := { a with cells := a.cells.setIfInBounds s (.vacant a.free), free := some s,
                    size := a.size - 1, generation := a.generation + 1 }
  return ({ key := n.key, value := n.value, next := n.next, prev := n.prev }, a)

/-- Remove the least recent entry. Faults when empty. -/
def evictTail (a : Arena κ ν) : Except ArenaFault ((κ × ν) × Arena κ ν) :=
  match a.tail with
  | none => .error .empty
  | some t => do
    let (r, a) ← a.remove t
    return ((r.key, r.value), a)

/-- The key at `s`. -/
def key? (a : Arena κ ν) (s : Slot) : Except ArenaFault κ :=
  Node.key <$> a.live? .key s

/-- The value at `s`. -/
def value? (a : Arena κ ν) (s : Slot) : Except ArenaFault ν :=
  Node.value <$> a.live? .value s

/-- Store `v` at `s` and return the value it replaces; the recency order is unchanged. -/
def replace (a : Arena κ ν) (s : Slot) (v : ν) : Except ArenaFault (ν × Arena κ ν) := do
  let n ← a.live? .replace s
  return (n.value, a.modifyNode s fun m => { m with value := v })

/-- The neighbour of `s` towards the tail. -/
def next? (a : Arena κ ν) (s : Slot) : Except ArenaFault (Option Slot) :=
  Node.next <$> a.live? .next s

/-- The neighbour of `s` towards the head. -/
def prev? (a : Arena κ ν) (s : Slot) : Except ArenaFault (Option Slot) :=
  Node.prev <$> a.live? .prev s

/-- The generation at which `s` last became the head. -/
def seq? (a : Arena κ ν) (s : Slot) : Except ArenaFault Nat :=
  Node.seq <$> a.live? .seq s

/-- How many changes ago `s` last became the head. -/
def age? (a : Arena κ ν) (s : Slot) : Except ArenaFault Nat :=
  (a.generation - ·) <$> a.seq? s

/-- The live cells reached from `s` by following `next`, at most `fuel` of them. -/
def chainFrom (a : Arena κ ν) : Nat → Option Slot → List (Slot × Node κ ν)
  | 0, _ => []
  | _, none => []
  | fuel + 1, some s =>
    match a.node? s with
    | none => []
    | some n => (s, n) :: a.chainFrom fuel n.next

/-- The entries from most to least recent, with their slots. -/
def toList (a : Arena κ ν) : List (Slot × Node κ ν) :=
  a.chainFrom a.cells.size a.head

/-- The slots and keys from most to least recent. -/
def order (a : Arena κ ν) : List (Slot × κ) :=
  a.toList.map fun (s, n) => (s, n.key)

/-- Why `validate` stops: a broken invariant, with its message, or a link naming a slot past
the end of the array, where indexing the array is a runtime fault. -/
inductive Broken where
  | invariant (text : String)
  | outOfRange (s : Slot) (length : Nat)
  deriving DecidableEq, Repr

/-- The text `validate` stops with. -/
def Broken.message : Broken → String
  | .invariant text => text
  | .outOfRange s length => s!"runtime error: index out of range [{s}] with length {length}"

/-- The walk from the head that `validate` makes. At `s`, having visited `count` cells, the
last of them `prev` with stamp `last`, it checks the cell it reaches: live, linked back to
`prev`, stamped below `last` and not ahead of the generation. It returns the slot it visited
last and how many it visited, and gives up once it has visited more cells than the list
holds. -/
def walkForward (a : Arena κ ν) (s prev : Option Slot) (last count : Nat) :
    Except Broken (Option Slot × Nat) :=
  match s with
  | none => .ok (prev, count)
  | some s =>
    match a.cells[s]? with
    | none => .error (.outOfRange s a.cells.size)
    | some (.vacant _) => .error (.invariant s!"arena: free slot {s} linked into the list")
    | some (.live n) =>
      if n.prev != prev then
        .error (.invariant s!"arena: slot {s} prev={n.prev.getD noSlot}, want {prev.getD noSlot}")
      else if 0 < count ∧ last ≤ n.seq then
        .error (.invariant s!"arena: slot {s} seq {n.seq} not below predecessor seq {last}")
      else if a.generation < n.seq then
        .error (.invariant s!"arena: slot {s} seq {n.seq} ahead of generation {a.generation}")
      else if a.size < count + 1 then
        .error (.invariant s!"arena: forward walk exceeds len {a.size} (cycle?)")
      else a.walkForward n.next (some s) n.seq (count + 1)
termination_by a.size + 1 - count

/-- The walk back from the tail that `validate` makes: it counts the cells it reaches along
the links towards the head, and gives up once it has counted more than the list holds. -/
def walkBack (a : Arena κ ν) (s : Option Slot) (count : Nat) : Except Broken Nat :=
  match s with
  | none => .ok count
  | some s =>
    if a.size < count + 1 then
      .error (.invariant s!"arena: backward walk exceeds len {a.size} (cycle?)")
    else
      match a.cells[s]? with
      | none => .error (.outOfRange s a.cells.size)
      | some c => a.walkBack c.prev (count + 1)
termination_by a.size + 1 - count

/-- The walk along the free chain that `validate` makes: it counts the vacant cells it reaches,
stops at a live one, and gives up once it has counted more cells than the array holds. -/
def walkFree (a : Arena κ ν) (s : Option Slot) (count : Nat) : Except Broken Nat :=
  match s with
  | none => .ok count
  | some s =>
    match a.cells[s]? with
    | none => .error (.outOfRange s a.cells.size)
    | some (.live _) => .error (.invariant s!"arena: live slot {s} on the free list")
    | some (.vacant next) =>
      if a.cells.size < count + 1 then .error (.invariant "arena: free list cycle")
      else a.walkFree next (count + 1)
termination_by a.cells.size + 1 - count

/-- Check the list in both directions and the free chain, and report the first broken
invariant. Lists built by the operations above always pass. -/
def validate (a : Arena κ ν) : Except Broken Unit := do
  if a.capacity < a.cells.size then
    throw (.invariant s!"arena: {a.cells.size} slots allocated for capacity {a.capacity}")
  if a.head.isNone != a.tail.isNone then
    throw (.invariant
      s!"arena: head={a.head.getD noSlot} tail={a.tail.getD noSlot} disagree on emptiness")
  let (last, forward) ← a.walkForward a.head none 0 0
  if last != a.tail then
    throw (.invariant
      s!"arena: forward walk ended at {last.getD noSlot}, tail is {a.tail.getD noSlot}")
  if forward != a.size then
    throw (.invariant s!"arena: forward walk visited {forward} nodes, len is {a.size}")
  let backward ← a.walkBack a.tail 0
  if backward != a.size then
    throw (.invariant s!"arena: backward walk visited {backward} nodes, len is {a.size}")
  let vacant ← a.walkFree a.free 0
  if vacant + a.size != a.cells.size then
    throw (.invariant s!"arena: {vacant} free + {a.size} live != {a.cells.size} allocated")

end Arena

end RecencyMap
