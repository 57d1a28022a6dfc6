import RecencyMap.Arena

/-!
# Arena sessions

A session drives one arena by raw slot handles and reports, after each step, the slots and
keys from head to tail and the generation. A faulting step replies with the fault's text and
leaves the arena as it was; so does a `validate` that indexes past the end of the array.
-/

namespace RecencyMap

/-- One step of an arena script. -/
inductive ArenaStep (κ : Type) where
  | insert (k : κ) (v : String)
  | moveToHead (s : Slot)
  | evictTail
  | remove (s : Slot)
  | head
  | tail
  | next (s : Slot)
  | prev (s : Slot)
  | key (s : Slot)
  | value (s : Slot)
  | seq (s : Slot)
  | age (s : Slot)
  | replace (s : Slot) (v : String)
  | live (s : Slot)
  | len
  | cap
  | generation
  | full
  | validate

/-- The reply of an arena step. -/
inductive ArenaReply (κ : Type) where
  | unit
  | slot (s : Option Slot)
  | pair (k : κ) (v : String)
  | removal (r : Arena.Removal κ String)
  | key (k : κ)
  | value (v : String)
  | count (n : Nat)
  | flag (b : Bool)
  | problem (text : Option String)
  | panicked (message : String)

/-- The report of one arena step. -/
structure ArenaReport (κ : Type) where
  reply : ArenaReply κ
  order : List (Slot × κ)
  generation : Nat

namespace Arena

variable {κ : Type}

/-- The reply of a step and the arena after it. -/
def perform (a : Arena κ String) : ArenaStep κ → ArenaReply κ × Arena κ String
  | .insert k v => changed (fun (s, a) => (.slot (some s), a)) (a.insertAtHead k v)
  | .moveToHead s => changed (fun a => (.unit, a)) (a.moveToHead s)
  | .evictTail => changed (fun ((k, v), a) => (.pair k v, a)) a.evictTail
  | .remove s => changed (fun (r, a) => (.removal r, a)) (a.remove s)
  | .head => (.slot a.head, a)
  | .tail => (.slot a.tail, a)
  | .next s => read .slot (a.next? s)
  | .prev s => read .slot (a.prev? s)
  | .key s => read .key (a.key? s)
  | .value s => read .value (a.value? s)
  | .seq s => read .count (a.seq? s)
  | .age s => read .count (a.age? s)
  | .replace s v => changed (fun (old, a) => (.value old, a)) (a.replace s v)
  | .live s => (.flag (a.live s), a)
  | .len => (.count a.size, a)
  | .cap => (.count a.capacity, a)
  | .generation => (.count a.generation, a)
  | .full => (.flag a.isFull, a)
  | .validate =>
    match a.validate with
    | .ok () => (.problem none, a)
    | .error (.invariant text) => (.problem (some text), a)
    | .error b => (.panicked b.message, a)
where
  /-- A step that may change the arena. -/
  changed {α : Type} (f : α → ArenaReply κ × Arena κ String) :
      Except ArenaFault α → ArenaReply κ × Arena κ String
    | .ok x => f x
    | .error e => (.panicked e.message, a)
  /-- A step that only reads. -/
  read {α : Type} (f : α → ArenaReply κ) : Except ArenaFault α → ArenaReply κ × Arena κ String
    | .ok x => (f x, a)
    | .error e => (.panicked e.message, a)

/-- Run a script, reporting after each step. -/
def run (a : Arena κ String) : List (ArenaStep κ) → List (ArenaReport κ)
  | [] => []
  | st :: rest =>
    let (reply, a) := a.perform st
    { reply := reply, order := a.order, generation := a.generation } :: a.run rest

end Arena

end RecencyMap
