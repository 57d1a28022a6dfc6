import RecencyMap.Cursor
import RecencyMap.RangeQuery
import RecencyMap.Loading
import RecencyMap.Session.Events

/-!
# Map sessions

A session drives one map through a script of steps and reports, for each step, its reply,
the events the observers saw during it, and the keys afterwards. Cursors and walks are kept
by name; a name never set holds no cursor. A step that faults replies with the fault's text
and keeps every change made before the fault.

Beside the map's own operations a session offers the guarded operations of a locked map
(which on one thread are the same operations), read-or-load with a loader that follows a
rule, and a one-shot reaction: the first miss the counter observer records pushes a given
entry into the map.
-/

namespace RecencyMap

/-- How a loader answers: it fails for keys in `failing`, panics for keys in `panicking`, and
otherwise loads `"L"` followed by the key's text. -/
structure LoaderRule (κ : Type) where
  failing : List κ
  panicking : List κ

/-- What a session is set up with besides its map. -/
structure SessionSetup (κ : Type) where
  observers : Observers
  loader : Option (LoaderRule κ)
  naming : Option MetricNaming
  missPush : Option (κ × String)

/-- The kind of map a session drives. -/
inductive MapShape (κ : Type) where
  | hashed
  /-- Ordered by a comparator; `none` is a missing comparator. -/
  | ordered (cmp : Option (κ → κ → Ordering))

/-- Why a session could not be opened. -/
inductive OpenError where
  | registry (text : String)
  | build (e : BuildError)

/-- A limit on how many items a step lists: positive numbers limit, anything else does not. -/
def limitOf (n : Int) : Option Nat :=
  if n > 0 then some n.toNat else none

/-- Keep the first `limit` items, or all of them. -/
def takeLimit {α : Type} (limit : Option Nat) (xs : List α) : List α :=
  match limit with
  | some n => xs.take n
  | none => xs

/-- One step of a map script. Names are of cursors (`c`, `heir`, `a`, `b`) and walks (`it`). -/
inductive MapStep (κ : Type) where
  | push (k : κ) (v : String)
  | get (k : κ)
  | peek (k : κ)
  | contains (k : κ)
  | head
  | tail
  | len
  | cap
  | isEmpty
  | keys
  | extend (pairs : List (κ × String))
  | all (limit : Option Nat)
  | backward (limit : Option Nat)
  | drain (limit : Option Nat)
  | iter (it : String)
  | itNext (it : String)
  | itBack (it : String)
  | entry (k : κ) (c : String)
  | headEntry (c : String)
  | tailEntry (c : String)
  | cKey (c : String)
  | cValue (c : String)
  | cTouch (c : String)
  | cMoveNext (c : String)
  | cMovePrev (c : String)
  | cStaleness (c : String)
  | cAge (c : String)
  | cValid (c : String)
  | cIter (c it : String)
  | cTake (c : String)
  | cTakeNext (c heir : String)
  | cTakePrev (c heir : String)
  | cRemoveNext (c heir : String)
  | cRemovePrev (c heir : String)
  | entriesEqual (a b : String)
  | mostRecent (r : KeyRange κ) (c : String)
  | mostRecentWhere (r : KeyRange κ) (valueIn : Option (List String)) (keyNotIn : List κ)
      (c : String)
  | ascend (r : KeyRange κ) (limit : Option Nat)
  | lockedPush (k : κ) (v : String)
  | lockedGet (k : κ)
  | lockedPeek (k : κ)
  | lockedRemove (k : κ)
  | lockedLen
  | lockedKeys
  | lockedDo
  | gather
  | getOrLoad (k : κ)

/-- The reply of a step. -/
inductive Reply (κ : Type) where
  | unit
  | flag (b : Bool)
  | count (n : Nat)
  | key (k : κ)
  | value (v : String)
  | keys (ks : List κ)
  | pairs (ps : List (κ × String))
  | pair (k : κ) (v : String)
  | pushed (p : Pushed κ String)
  | found (v : Option String)
  | foundKey (k : Option κ)
  | foundEntry (e : Option (κ × String))
  | foundVisited (e : Option (κ × String)) (visited : List κ)
  | moved (moved : Bool)
  | movedTaking (moved : Bool) (k : κ) (v : String)
  | unknownWalk
  | samples (ss : List Sample)
  | loaded (r : Except (LoadError κ) String)
  | panicked (message : String)

/-- Why a step cannot be run on this session at all. -/
inductive Refusal where
  /-- A range query on a map without key order. -/
  | rangeOnHashed
  /-- Gathering metrics without a registry. -/
  | noRegistry
  deriving DecidableEq, Repr

/-- The report of one step; the keys after it are listed when the script asks for them. -/
structure StepReport (κ : Type) where
  reply : Reply κ
  events : List (Event κ String)
  keys : Option (List κ)

/-- A map with its observers, named cursors and walks, and what they have seen. -/
structure Session (κ : Type) [BEq κ] [Hashable κ] where
  setup : SessionSetup κ
  map : Lru (SomeIndex κ) κ String
  cursors : List (String × Cursor)
  walks : List (String × Walk)
  missPush : Option (κ × String)
  counters : Counters
  events : Array (Event κ String)

/-- Steps run in a session and may fault with a message, keeping the changes before it. -/
abbrev SessionM (κ : Type) [BEq κ] [Hashable κ] := ExceptT String (StateM (Session κ))

namespace Session

variable {κ : Type} [BEq κ] [Hashable κ] [ToString κ]

/-- Open a session: register the metric families when a registry is asked for, then build
the map (a missing comparator is refused before the capacity is looked at). -/
def open? (shape : MapShape κ) (capacity : Int) (setup : SessionSetup κ)
    (registerTwice : Bool) : Except OpenError (Session κ) := do
  if let some naming := setup.naming then
    (naming.register? registerTwice).mapError OpenError.registry
  let index ← match shape with
    | .hashed => pure SomeIndex.emptyHashed
    | .ordered none => throw (OpenError.build .nilCompare)
    | .ordered (some cmp) => pure (SomeIndex.emptyOrdered cmp)
  let map ← (Lru.create? capacity index).mapError OpenError.build
  return { setup := setup, map := map, cursors := [], walks := [],
           missPush := setup.missPush, counters := {}, events := #[] }

/-- Record the events of some signals and tally them. -/
def observe (sigs : List (Signal κ String)) : SessionM κ Unit :=
  modify fun s =>
    { s with events := s.events ++ (sigs.flatMap s.setup.observers.events).toArray,
             counters := sigs.foldl Counters.tally s.counters }

/-- Record one event. -/
def note (e : Event κ String) : SessionM κ Unit :=
  modify fun s => { s with events := s.events.push e }

/-- Fail with the text of a fault. -/
def orFault {α ε : Type} (message : ε → String) : Except ε α → SessionM κ α
  | .ok a => pure a
  | .error e => throw (message e)

/-- Run a map operation: keep its map, observe its signals, return its answer. -/
def onMap {α : Type} (f : Lru (SomeIndex κ) κ String →
    Except ArenaFault (Traced (SomeIndex κ) κ String α)) : SessionM κ α := do
  let (a, m, sigs) ← orFault ArenaFault.message (f (← get).map)
  modify fun s => { s with map := m }
  observe sigs
  return a

/-- Read from the map without changing it. -/
def readMap {α : Type} (f : Lru (SomeIndex κ) κ String → Except ArenaFault α) : SessionM κ α := do
  orFault ArenaFault.message (f (← get).map)

/-- The cursor stored under a name. -/
def cursor (name : String) : SessionM κ (Option Cursor) := do
  return ((← get).cursors.lookup name)

/-- Store a cursor, or clear the name. -/
def setCursor (name : String) (c : Option Cursor) : SessionM κ Unit :=
  modify fun s =>
    let rest := s.cursors.filter (·.1 != name)
    { s with cursors := match c with
      | some c => (name, c) :: rest
      | none => rest }

/-- The cursor stored under a name, or the fault of using a missing one. -/
def held (name : String) : SessionM κ Cursor := do
  orFault CursorFault.message (Cursor.held? (← cursor name))

/-- Lift a cursor operation. -/
def onCursor {α : Type} (r : Except CursorFault α) : SessionM κ α :=
  orFault CursorFault.message r

/-- Store a walk, or clear the name. -/
def setWalk (name : String) (w : Option Walk) : SessionM κ Unit :=
  modify fun s =>
    let rest := s.walks.filter (·.1 != name)
    { s with walks := match w with
      | some w => (name, w) :: rest
      | none => rest }

/-- Push an entry. -/
def pushEntry (k : κ) (v : String) : SessionM κ (Pushed κ String) :=
  onMap (·.push k v)

/-- The first miss the counter observer records pushes the armed entry. -/
def reactToMiss : SessionM κ Unit := do
  let s ← get
  if s.setup.observers.recording then
    if let some (k, v) := s.missPush then
      set { s with missPush := none }
      discard (pushEntry k v)

/-- Read a key, making it the most recent; a miss may set off the one-shot reaction. -/
def getValue (k : κ) : SessionM κ (Option String) := do
  let v ← onMap (·.get k)
  if v.isNone then reactToMiss
  return v

/-- The entry under a fresh cursor, stored under `name`. -/
def storeEntry (name : String) (c : Option Cursor) : SessionM κ (Reply κ) := do
  setCursor name c
  match c with
  | none => return .foundEntry none
  | some c =>
    let m := (← get).map
    let k ← onCursor (c.key m)
    let v ← onCursor (c.value m)
    return .foundEntry (some (k, v))

/-- Remove the entry under a cursor, consuming it; store the neighbour cursor under `heir`
when a name is given. -/
def takeAt (c : String) (heir : Option String) (towardsTail : Bool) :
    SessionM κ ((κ × String) × Option Cursor) := do
  let cur ← held c
  let m := (← get).map
  let (r, m, sigs) ← onCursor (cur.take m towardsTail)
  modify fun s => { s with map := m }
  observe sigs
  setCursor c none
  if let some name := heir then setCursor name r.2
  return r

/-- The scan of a range, for an ordered map. -/
def scanOf (r : KeyRange κ) : SessionM κ (List (κ × Slot)) := do
  match (← get).map.index.scan? r with
  | some entries => return entries
  | none => throw "range query on a hashed map"

/-- A cursor at the most recent entry of a scan that satisfies `cond`, stored under `c`. -/
def mostRecentBy (r : KeyRange κ) (cond : κ → String → Bool) (c : String) :
    SessionM κ (Reply κ) := do
  let entries ← scanOf r
  let m := (← get).map
  let best ← readMap fun m => m.mostRecentAmong cond entries
  storeEntry c (best.map m.cursorAt)

/-- What the rule's loader does for `k`: it is seen loading, then panics, fails or loads. -/
def loadBy (rule : LoaderRule κ) (k : κ) : SessionM κ (Except String String) := do
  note (.load k)
  if rule.panicking.contains k then throw "loader panicked"
  if rule.failing.contains k then return .error "loader failed"
  return .ok ("L" ++ toString k)

/-- Run the body of one step. -/
def perform : MapStep κ → SessionM κ (Reply κ)
  | .push k v | .lockedPush k v => .pushed <$> pushEntry k v
  | .get k | .lockedGet k => .found <$> getValue k
  | .peek k | .lockedPeek k => .found <$> readMap (·.peek k)
  | .contains k => do return .flag ((← get).map.contains k)
  | .head => .foundKey <$> readMap (·.headKey)
  | .tail => .foundKey <$> readMap (·.tailKey)
  | .len | .lockedLen => do return .count (← get).map.size
  | .cap => do return .count (← get).map.capacity
  | .isEmpty => do return .flag ((← get).map.size == 0)
  | .keys | .lockedKeys | .lockedDo => do return .keys (← get).map.keys
  | .extend pairs => do
    onMap (·.extend pairs)
    return .unit
  | .all limit => do return .pairs (takeLimit limit (← get).map.toList)
  | .backward limit => do return .pairs (takeLimit limit (← get).map.toList.reverse)
  | .drain limit => .pairs <$> onMap (·.drain limit)
  | .iter it => do
    setWalk it (some (← get).map.walk)
    return .unit
  | .itNext it => stepWalk it true
  | .itBack it => stepWalk it false
  | .entry k c => do storeEntry c ((← get).map.entry? k)
  | .headEntry c => do storeEntry c (← get).map.headEntry?
  | .tailEntry c => do storeEntry c (← get).map.tailEntry?
  | .cKey c => do
    let cur ← held c
    .key <$> onCursor (cur.key (← get).map)
  | .cValue c => do
    let cur ← held c
    .value <$> onCursor (cur.value (← get).map)
  | .cTouch c => do
    let cur ← held c
    let (cur, m) ← onCursor (cur.touch (← get).map)
    modify fun s => { s with map := m }
    setCursor c (some cur)
    return .unit
  | .cMoveNext c => moveBy c true
  | .cMovePrev c => moveBy c false
  | .cStaleness c => do
    let cur ← held c
    return .count (cur.staleness (← get).map)
  | .cAge c => do
    let cur ← held c
    .count <$> onCursor (cur.age (← get).map)
  | .cValid c => do return .flag (Cursor.valid (← cursor c) (← get).map)
  | .cIter c it => do
    setWalk it none
    let cur ← held c
    setWalk it (some (cur.walk (← get).map))
    return .unit
  | .cTake c => do
    let ((k, v), _) ← takeAt c none true
    return .pair k v
  | .cTakeNext c heir => takeReply c heir true
  | .cTakePrev c heir => takeReply c heir false
  | .cRemoveNext c heir => do
    let (_, next) ← takeAt c (some heir) true
    return .moved next.isSome
  | .cRemovePrev c heir => do
    let (_, prev) ← takeAt c (some heir) false
    return .moved prev.isSome
  | .entriesEqual a b => do
    let ca ← held a
    let m := (← get).map
    let ka ← onCursor (ca.key m)
    let cb ← held b
    let kb ← onCursor (cb.key m)
    if ka != kb then return .flag false
    let va ← onCursor (ca.value m)
    let vb ← onCursor (cb.value m)
    return .flag (va == vb)
  | .mostRecent r c => mostRecentBy r (fun _ _ => true) c
  | .mostRecentWhere r valueIn keyNotIn c => do
    let visited := (← scanOf r).map Prod.fst
    let cond k v := valueIn.all (·.contains v) && !keyNotIn.contains k
    match ← mostRecentBy r cond c with
    | .foundEntry e => return .foundVisited e visited
    | other => return other
  | .ascend r limit => do
    let entries ← scanOf r
    .pairs <$> readMap fun m => m.valuesAmong (takeLimit limit entries)
  | .lockedRemove k => do
    let c := (← get).map.entry? k
    match c with
    | none => return .found none
    | some cur => do
      let m := (← get).map
      let (((_, v), _), m, sigs) ← onCursor (cur.take m true)
      modify fun s => { s with map := m }
      observe sigs
      return .found (some v)
  | .gather => do
    let s ← get
    match s.setup.naming with
    | some naming => return .samples (naming.gather s.counters)
    | none => throw "no metrics registry"
  | .getOrLoad k => do
    let loader := (← get).setup.loader.map loadBy
    .loaded <$> getOrLoad getValue (fun k v => discard (pushEntry k v)) loader k
where
  /-- Step a named walk from the front or the back. -/
  stepWalk (it : String) (forward : Bool) : SessionM κ (Reply κ) := do
    let s ← get
    match s.walks.lookup it with
    | none => return .unknownWalk
    | some w =>
      let (w, r) := if forward then w.next s.map.arena else w.nextBack s.map.arena
      setWalk it (some w)
      .foundEntry <$> orFault ArenaFault.message r
  /-- Move a named cursor one step. -/
  moveBy (c : String) (towardsTail : Bool) : SessionM κ (Reply κ) := do
    let cur ← held c
    let m := (← get).map
    let (moved, cur) ← onCursor (if towardsTail then cur.moveNext m else cur.movePrev m)
    setCursor c (some cur)
    return .flag moved
  /-- Take under a cursor and reply with the entry and whether a neighbour was found. -/
  takeReply (c heir : String) (towardsTail : Bool) : SessionM κ (Reply κ) := do
    let ((k, v), next) ← takeAt c (some heir) towardsTail
    return .movedTaking next.isSome k v

/-- Why a step cannot run in this session, if it cannot. -/
def refusal? (s : Session κ) : MapStep κ → Option Refusal
  | .mostRecent .. | .mostRecentWhere .. | .ascend .. =>
    match s.map.index with
    | .hashed _ => some .rangeOnHashed
    | .ordered .. => none
  | .gather => if s.setup.naming.isSome then none else some .noRegistry
  | _ => none

/-- Run one step: its reply (a fault's text when it faults), the events seen during it and,
when `listKeys` holds, the keys after it. -/
def step (listKeys : Bool) (s : Session κ) (st : MapStep κ) :
    Except Refusal (StepReport κ × Session κ) :=
  match s.refusal? st with
  | some r => .error r
  | none =>
    let (r, s) := ((perform st).run { s with events := #[] }).run
    let reply := match r with
      | .ok reply => reply
      | .error message => .panicked message
    .ok ({ reply := reply, events := s.events.toList,
           keys := if listKeys then some s.map.keys else none }, s)

/-- Run a script; a refused step refuses the whole script. -/
def run (listKeys : Bool) (s : Session κ) : List (MapStep κ) → Except Refusal (List (StepReport κ))
  | [] => .ok []
  | st :: rest => do
    let (report, s) ← s.step listKeys st
    let reports ← s.run listKeys rest
    return report :: reports

end Session

end RecencyMap
