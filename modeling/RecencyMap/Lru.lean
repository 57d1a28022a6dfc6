import RecencyMap.KeyIndex

/-!
# Recency maps

A map of at most `capacity` entries that forgets its least recently used entry when a new
key arrives while it is full. Entries sit in an `Arena`, most recent first; an index of kind
`ι` finds the slot of a key. Every operation reports what an observer may want to know as a
list of `Signal`s, in the order they happen.

The generation of the arena counts structural changes: an insertion, a move to the front,
a removal each add one, so a push that evicts adds two.
-/

namespace RecencyMap

/-- What an operation tells its observers, in order. -/
inductive Signal (κ ν : Type) where
  /-- A lookup that moved the entry it found to the front. -/
  | hit
  /-- A lookup that found nothing. -/
  | miss
  /-- A push that replaced the value of a present key. -/
  | replaced
  /-- The number of entries after an insertion or a removal. -/
  | resized (size : Nat)
  /-- A push evicted `(key, value)`; `size` and `generation` are those after the push. -/
  | evicted (key : κ) (value : ν) (size generation : Nat)
  /-- A drain removed `count` entries and left `remaining`. -/
  | drained (count remaining : Nat)

/-- What a push displaced. -/
inductive Pushed (κ ν : Type) where
  /-- Nothing: the key was new and there was room. -/
  | fresh
  /-- The key was present; `key` is the pushed key and `old` the value it replaced. -/
  | replaced (key : κ) (old : ν)
  /-- The key was new and the least recent entry `(key, value)` made room for it. -/
  | evicted (key : κ) (value : ν)

/-- Why a map could not be built. -/
inductive BuildError where
  | invalidCapacity (requested : Int)
  | capacityTooLarge (requested : Int)
  | nilCompare
  deriving DecidableEq, Repr

/-- The text of a build error. -/
def BuildError.message : BuildError → String
  | .invalidCapacity n => s!"cache: capacity must be at least 1: got {n}"
  | .capacityTooLarge n => s!"cache: capacity exceeds MaxCapacity: got {n}, max {maxCapacity}"
  | .nilCompare => "cache: nil compare function"

/-- A bounded map ordered by recency of use. -/
structure Lru (ι κ ν : Type) where
  arena : Arena κ ν
  index : ι

/-- A map after an operation, with what the operation reported. -/
abbrev Traced (ι κ ν α : Type) := α × Lru ι κ ν × List (Signal κ ν)

namespace Lru

variable {ι κ ν : Type} [KeyIndex ι κ]

/-- An empty map of the given capacity over an empty index. -/
def create? (capacity : Int) (index : ι) : Except BuildError (Lru ι κ ν) :=
  if capacity < 1 then .error (.invalidCapacity capacity)
  else if capacity > maxCapacity then .error (.capacityTooLarge capacity)
  else .ok { arena := Arena.empty capacity.toNat, index := index }

/-- The number of entries. -/
def size (m : Lru ι κ ν) : Nat := m.arena.size

/-- The most entries the map holds. -/
def capacity (m : Lru ι κ ν) : Nat := m.arena.capacity

/-- The number of structural changes so far. -/
def generation (m : Lru ι κ ν) : Nat := m.arena.generation

/-- The slot of the entry whose key is equivalent to `k`. -/
def find? (m : Lru ι κ ν) (k : κ) : Option Slot := KeyIndex.find? m.index k

/-- Store `v` under `k` as the most recent entry. A present key keeps its stored spelling
and gets the new value; a new key is inserted, evicting the least recent entry when full. -/
def push (m : Lru ι κ ν) (k : κ) (v : ν) : Except ArenaFault (Traced ι κ ν (Pushed κ ν)) :=
  let ⟨arena, index⟩ := m
  match KeyIndex.find? index k with
  | some s => do
    let (old, a) ← arena.replace s v
    let a ← a.moveToHead s
    return (.replaced k old, { arena := a, index := index }, [.replaced])
  | none => do
    let (gone, a, idx) ← if arena.isFull then do
        let ((ek, ev), a) ← arena.evictTail
        pure (some (ek, ev), a, KeyIndex.erase index ek)
      else pure (none, arena, index)
    let (s, a) ← a.insertAtHead k v
    let m' : Lru ι κ ν := { arena := a, index := KeyIndex.insert idx k s }
    match gone with
    | none => return (.fresh, m', [.resized a.size])
    | some (ek, ev) =>
      return (.evicted ek ev, m', [.resized a.size, .evicted ek ev a.size a.generation])

/-- The value of `k`, making it the most recent entry. -/
def get (m : Lru ι κ ν) (k : κ) : Except ArenaFault (Traced ι κ ν (Option ν)) :=
  let ⟨arena, index⟩ := m
  match KeyIndex.find? index k with
  | none => .ok (none, { arena := arena, index := index }, [.miss])
  | some s => do
    let a ← arena.moveToHead s
    let v ← a.value? s
    return (some v, { arena := a, index := index }, [.hit])

/-- The value of `k`, leaving the order as it is. -/
def peek (m : Lru ι κ ν) (k : κ) : Except ArenaFault (Option ν) :=
  match m.find? k with
  | none => .ok none
  | some s => some <$> m.arena.value? s

/-- Whether some key equivalent to `k` is present. -/
def contains (m : Lru ι κ ν) (k : κ) : Bool := (m.find? k).isSome

/-- The key at an optional slot. -/
def keyAt (m : Lru ι κ ν) : Option Slot → Except ArenaFault (Option κ)
  | none => .ok none
  | some s => some <$> m.arena.key? s

/-- The most recent key. -/
def headKey (m : Lru ι κ ν) : Except ArenaFault (Option κ) := m.keyAt m.arena.head

/-- The least recent key. -/
def tailKey (m : Lru ι κ ν) : Except ArenaFault (Option κ) := m.keyAt m.arena.tail

/-- The entries from most to least recent. -/
def toList (m : Lru ι κ ν) : List (κ × ν) :=
  m.arena.toList.map fun (_, n) => (n.key, n.value)

/-- The keys from most to least recent. -/
def keys (m : Lru ι κ ν) : List κ :=
  m.arena.toList.map fun (_, n) => n.key

/-- Remove the entry at `s`, reporting the new size. -/
def take (m : Lru ι κ ν) (s : Slot) : Except ArenaFault (Traced ι κ ν (Arena.Removal κ ν)) := do
  let ⟨arena, index⟩ := m
  let (r, a) ← arena.remove s
  return (r, { arena := a, index := KeyIndex.erase index r.key }, [.resized a.size])

/-- Push each pair in order. -/
def extend (m : Lru ι κ ν) : List (κ × ν) → Except ArenaFault (Traced ι κ ν Unit)
  | [] => .ok ((), m, [])
  | (k, v) :: rest => do
    let (_, m, sig) ← m.push k v
    let (_, m, sig') ← m.extend rest
    return ((), m, sig ++ sig')

/-- Remove the most recent entry `n` times or until the map is empty, most recent first. -/
def takeHeads (m : Lru ι κ ν) : Nat → Except ArenaFault (Traced ι κ ν (List (κ × ν)))
  | 0 => .ok ([], m, [])
  | n + 1 =>
    match m.arena.head with
    | none => .ok ([], m, [])
    | some s => do
      let (r, m, sig) ← m.take s
      let (rest, m, sig') ← m.takeHeads n
      return ((r.key, r.value) :: rest, m, sig ++ sig')

/-- Remove up to `limit` entries from the front (all of them when `limit` is `none`), and
report the drain when it removed anything. -/
def drain (m : Lru ι κ ν) (limit : Option Nat) :
    Except ArenaFault (Traced ι κ ν (List (κ × ν))) := do
  let (gone, m, sig) ← m.takeHeads (limit.getD m.size)
  let log := if gone.isEmpty then [] else [Signal.drained gone.length m.size]
  return (gone, m, sig ++ log)

end Lru

end RecencyMap
