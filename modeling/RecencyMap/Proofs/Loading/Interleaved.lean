import RecencyMap.Loading
import RecencyMap.Proofs.Map.Calls

/-!
# Read-or-load among concurrent callers

Callers of read-or-load on one guarded map run at once. The lock of the map and the lock of the
table of flights make their sections atomic; everything else interleaves. Every caller here
asks for the same key; other callers make any other calls on the map between their steps, and
any caller's context may be cancelled at any time.

A caller reads the key, and on a hit returns the value. On a miss it returns the missing-loader
error when there is no loader; otherwise it enters the key's flight: it follows the flight in
the table, or registers a new one and leads it. The leader reads again; on a hit the flight's
work ends with that value, on a miss it calls the loader, outside any lock. The loader gives a
value, which the leader pushes, or fails, or panics, or ends the leader's thread. The leader
then publishes how the work ended, which wakes the followers, and last takes the flight out of
the table. A follower takes the published result, or gives up once its own context is
cancelled; when both can happen, either may.

The system is a state (`Loads`), the events that move it (`LoadEvent`), when each can happen
(`Loads.Enabled`) and the state it leaves (`Loads.next`). `Loads.Reachable` holds of the states
that runs from a start reach.
-/

namespace RecencyMap

/-- How the work of a flight ended. -/
inductive Work (ν : Type) where
  /-- The leader's second read found the value. -/
  | found (v : ν)
  /-- The loader gave the value, and the leader pushed it. -/
  | loaded (v : ν)
  /-- The loader failed with this reason. -/
  | failed (reason : String)
  /-- The loader panicked with this text. -/
  | panicked (text : String)
  /-- The loader ended the leader's thread. -/
  | exited
  deriving DecidableEq

/-- What a caller of read-or-load ended with. -/
inductive Answer (ν : Type) where
  /-- Its first read found the value. -/
  | hit (v : ν)
  /-- It missed, and there is no loader. -/
  | noLoader
  /-- It led flight `f`, whose work ended as `w`; a panic of the loader panics this caller, and
  an exit ends its thread. -/
  | led (f : Nat) (w : Work ν)
  /-- It followed flight `f` and took its result `w`. -/
  | joined (f : Nat) (w : Work ν)
  /-- It followed flight `f` and gave up with its own context's error. -/
  | cancelled (f : Nat)
  deriving DecidableEq

/-- Where a caller of read-or-load is. -/
inductive Phase (ν : Type) where
  /-- About to read the key. -/
  | start
  /-- It missed, and there is a loader: about to enter the key's flight. -/
  | joining
  /-- It leads flight `f`: about to read again. -/
  | recheck (f : Nat)
  /-- It leads flight `f` and missed again: about to call the loader. -/
  | calling (f : Nat)
  /-- It leads flight `f`: the loader runs. -/
  | loading (f : Nat)
  /-- It leads flight `f`: the loader gave `v`, about to push it. -/
  | storing (f : Nat) (v : ν)
  /-- It leads flight `f`, whose work ended as `w`: about to publish it. -/
  | publishing (f : Nat) (w : Work ν)
  /-- It leads flight `f`, whose result `w` is published: about to leave the table. -/
  | leaving (f : Nat) (w : Work ν)
  /-- It follows flight `f`. -/
  | waiting (f : Nat)
  /-- It ended with this answer. -/
  | returned (a : Answer ν)
  deriving DecidableEq

/-- The flight a caller in this phase leads, if it leads one. -/
def Phase.leads {ν : Type} : Phase ν → Option Nat
  | .recheck f | .calling f | .loading f | .storing f _ | .publishing f _ | .leaving f _ => some f
  | _ => none

/-- A registered flight: the caller that leads it, and its result once published. -/
structure Flight (ν : Type) where
  leader : Nat
  result : Option (Work ν)

/-- Callers of read-or-load of `key` on one map, with a loader when `hasLoader`. Flights are
numbered in the order they were registered; `count` were. -/
structure Loads (κ ν : Type) [BEq κ] [Hashable κ] where
  key : κ
  hasLoader : Bool
  map : Lru (SomeIndex κ) κ ν
  /-- The flight of the key in the table, if any. -/
  inFlight : Option Nat
  flights : Nat → Option (Flight ν)
  count : Nat
  phase : Nat → Phase ν
  cancelled : Nat → Bool

/-- What moves the callers: a step of caller `t`, the cancellation of its context, or a call
of another caller on the map. -/
inductive LoadEvent (κ ν : Type) where
  /-- Caller `t` reads the key. -/
  | read (t : Nat)
  /-- Caller `t` enters the key's flight. -/
  | enter (t : Nat)
  /-- Caller `t`, a leader, reads the key again. -/
  | reread (t : Nat)
  /-- Caller `t`, a leader, calls the loader. -/
  | call (t : Nat)
  /-- The loader of caller `t` gives `v`. -/
  | give (t : Nat) (v : ν)
  /-- The loader of caller `t` fails. -/
  | fail (t : Nat) (reason : String)
  /-- The loader of caller `t` panics. -/
  | panic (t : Nat) (text : String)
  /-- The loader of caller `t` ends its thread. -/
  | exit (t : Nat)
  /-- Caller `t` pushes what its loader gave. -/
  | store (t : Nat)
  /-- Caller `t` publishes the result of its flight. -/
  | publish (t : Nat)
  /-- Caller `t` takes its flight out of the table. -/
  | leave (t : Nat)
  /-- Caller `t`, a follower, takes the published result. -/
  | wake (t : Nat)
  /-- Caller `t`, a follower, gives up. -/
  | giveUp (t : Nat)
  /-- The context of caller `t` is cancelled. -/
  | cancel (t : Nat)
  /-- Another caller makes a call on the map. -/
  | other (c : MapCall κ ν)

namespace Loads

variable {κ ν : Type} [BEq κ] [Hashable κ]

/-- The callers of `key` before any of them started, on the map `m`. -/
def start (key : κ) (hasLoader : Bool) (m : Lru (SomeIndex κ) κ ν) : Loads κ ν where
  key := key
  hasLoader := hasLoader
  map := m
  inFlight := none
  flights := fun _ => none
  count := 0
  phase := fun _ => .start
  cancelled := fun _ => false

/-- The published result of flight `f`. -/
def result (s : Loads κ ν) (f : Nat) : Option (Work ν) := (s.flights f).bind Flight.result

/-- When an event can happen. -/
def Enabled (s : Loads κ ν) : LoadEvent κ ν → Prop
  | .read t => s.phase t = .start
  | .enter t => s.phase t = .joining
  | .reread t => ∃ f, s.phase t = .recheck f
  | .call t => ∃ f, s.phase t = .calling f
  | .give t _ | .fail t _ | .panic t _ | .exit t => ∃ f, s.phase t = .loading f
  | .store t => ∃ f v, s.phase t = .storing f v
  | .publish t => ∃ f w, s.phase t = .publishing f w
  | .leave t => ∃ f w, s.phase t = .leaving f w
  | .wake t => ∃ f w, s.phase t = .waiting f ∧ s.result f = some w
  | .giveUp t => (∃ f, s.phase t = .waiting f) ∧ s.cancelled t = true
  | .cancel _ | .other _ => True

/-- Caller `t` moves to phase `p`. -/
def moveTo (s : Loads κ ν) (t : Nat) (p : Phase ν) : Loads κ ν :=
  { s with phase := Function.update s.phase t p }

/-- The state an event leaves. Reads, the push and other callers' calls run the map's own
operations under its lock; a map that faults is left as it was. -/
def next (s : Loads κ ν) : LoadEvent κ ν → Loads κ ν
  | .read t =>
    match s.map.get s.key with
    | .ok (some v, m, _) => { s.moveTo t (.returned (.hit v)) with map := m }
    | .ok (none, m, _) =>
      { s.moveTo t (if s.hasLoader then .joining else .returned .noLoader) with map := m }
    | .error _ => s
  | .enter t =>
    match s.inFlight with
    | some f => s.moveTo t (.waiting f)
    | none =>
      { s.moveTo t (.recheck s.count) with
        inFlight := some s.count
        flights := Function.update s.flights s.count (some ⟨t, none⟩)
        count := s.count + 1 }
  | .reread t =>
    match s.phase t, s.map.get s.key with
    | .recheck f, .ok (some v, m, _) => { s.moveTo t (.publishing f (.found v)) with map := m }
    | .recheck f, .ok (none, m, _) => { s.moveTo t (.calling f) with map := m }
    | _, _ => s
  | .call t =>
    match s.phase t with
    | .calling f => s.moveTo t (.loading f)
    | _ => s
  | .give t v =>
    match s.phase t with
    | .loading f => s.moveTo t (.storing f v)
    | _ => s
  | .fail t reason =>
    match s.phase t with
    | .loading f => s.moveTo t (.publishing f (.failed reason))
    | _ => s
  | .panic t text =>
    match s.phase t with
    | .loading f => s.moveTo t (.publishing f (.panicked text))
    | _ => s
  | .exit t =>
    match s.phase t with
    | .loading f => s.moveTo t (.publishing f .exited)
    | _ => s
  | .store t =>
    match s.phase t with
    | .storing f v =>
      match s.map.push s.key v with
      | .ok (_, m, _) => { s.moveTo t (.publishing f (.loaded v)) with map := m }
      | .error _ => s
    | _ => s
  | .publish t =>
    match s.phase t with
    | .publishing f w =>
      { s.moveTo t (.leaving f w) with flights := Function.update s.flights f (some ⟨t, some w⟩) }
    | _ => s
  | .leave t =>
    match s.phase t with
    | .leaving f w => { s.moveTo t (.returned (.led f w)) with inFlight := none }
    | _ => s
  | .wake t =>
    match s.phase t with
    | .waiting f =>
      match s.result f with
      | some w => s.moveTo t (.returned (.joined f w))
      | none => s
    | _ => s
  | .giveUp t =>
    match s.phase t with
    | .waiting f => s.moveTo t (.returned (.cancelled f))
    | _ => s
  | .cancel t => { s with cancelled := Function.update s.cancelled t true }
  | .other c =>
    match s.map.call c with
    | .ok (_, m) => { s with map := m }
    | .error _ => s

/-- One step: an event that can happen, and the state it leaves. -/
def Step (s s' : Loads κ ν) : Prop := ∃ e, s.Enabled e ∧ s' = s.next e

/-- The states runs reach from a start on a consistent map with room for an entry. -/
inductive Reachable : Loads κ ν → Prop
  | start (key : κ) (hasLoader : Bool) {m : Lru (SomeIndex κ) κ ν} (hc : m.Consistent)
      (hcap : 0 < m.capacity) : Reachable (Loads.start key hasLoader m)
  | step {s s' : Loads κ ν} : Reachable s → Step s s' → Reachable s'

end Loads

end RecencyMap
