import Mathlib
import RecencyMap.Flight

/-!
# Single-flight calls among concurrent callers

Callers of `Do` on one group run at once. The lock of the group makes two sections atomic: the
first, which looks the key up in the table and either follows the flight found there or
registers a new one, and the last, which takes a leader's flight out of the table. Closing a
flight's `done` channel is a one-shot broadcast: once closed, every follower may see the value
and error the flight stored before closing it. Everything else interleaves.

A caller asks for a key. When the key has a flight in the table the caller follows it: it
waits until the flight is closed and returns what the flight stored, with `shared` set, or
gives up with its own context's error once that context is done; when both can happen, either
may. Otherwise the caller registers a new flight for the key and leads it: it runs its
function, outside the lock. The function returns a value and an error, panics, or ends the
caller's thread; the flight stores what its followers are to see, the leader closes it, and
last takes it out of the table and ends as its function did.

The system is a state (`DoCalls`), the events that move it (`DoEvent`), when each can happen
(`DoCalls.Enabled`) and the state it leaves (`DoCalls.next`). `DoCalls.Reachable` holds of the
states that runs from an idle group reach.
-/

namespace RecencyMap

/-- How the function a leader runs ended. -/
inductive FnEnd (ν : Type) where
  /-- It returned a value and maybe an error. -/
  | returned (value : ν) (error : Option String)
  /-- It panicked with this text. -/
  | panicked (text : String)
  /-- It ended the leader's thread. -/
  | exited
  deriving DecidableEq

/-- The error a flight stores when its function panicked with `text`. -/
def panicError (text : String) : String := "singleflight: load panicked: " ++ text

/-- The error a flight stores when its function ended the leader's thread. -/
def goexitError : String := "singleflight: load called runtime.Goexit"

/-- The value and error a flight stores once its function ended as `e`; `zero` is the zero
value, which a function that did not return leaves in place. -/
def FnEnd.stored {ν : Type} (zero : ν) : FnEnd ν → ν × Option String
  | .returned v err => (v, err)
  | .panicked text => (zero, some (panicError text))
  | .exited => (zero, some goexitError)

/-- How a call of `Do` ended for its caller. -/
inductive DoAnswer (ν : Type) where
  /-- It returned a value, an error, and whether they came from another caller's function. -/
  | returned (value : ν) (error : Option String) (shared : Bool)
  /-- It panicked again with the text its function panicked with. -/
  | panicked (text : String)
  /-- Its thread ended inside its function. -/
  | exited
  deriving DecidableEq

/-- What a leader's call ends with once its function ended as `e`. -/
def FnEnd.leaderAnswer {ν : Type} : FnEnd ν → DoAnswer ν
  | .returned v err => .returned v err false
  | .panicked text => .panicked text
  | .exited => .exited

/-- Where a caller of `Do` is. -/
inductive DoPhase (ν : Type) where
  /-- It has not called yet. -/
  | idle
  /-- It leads flight `f`, and its function runs. -/
  | running (f : Nat)
  /-- It leads flight `f`, whose function ended as `e`: about to close the flight. -/
  | finishing (f : Nat) (e : FnEnd ν)
  /-- It leads flight `f`, now closed: about to take it out of the table. -/
  | releasing (f : Nat) (e : FnEnd ν)
  /-- It follows flight `f`. -/
  | waiting (f : Nat)
  /-- Its call ended with this answer. -/
  | done (a : DoAnswer ν)
  deriving DecidableEq

/-- The flight a caller in this phase leads, if it leads one. -/
def DoPhase.leads {ν : Type} : DoPhase ν → Option Nat
  | .running f | .finishing f _ | .releasing f _ => some f
  | _ => none

/-- A registered flight: its key, the caller that registered it, the value and error it stores
for its followers, and whether it is closed. -/
structure DoFlight (κ ν : Type) where
  key : κ
  leader : Nat
  value : ν
  error : Option String
  closed : Bool
  deriving DecidableEq

/-- The flight of key `k` that caller `t` leads in this phase, as it stands. -/
def DoPhase.record {κ ν : Type} (zero : ν) (k : κ) (t : Nat) :
    DoPhase ν → Option (DoFlight κ ν)
  | .running _ => some ⟨k, t, zero, none, false⟩
  | .finishing _ e => some ⟨k, t, (e.stored zero).1, (e.stored zero).2, false⟩
  | .releasing _ e => some ⟨k, t, (e.stored zero).1, (e.stored zero).2, true⟩
  | _ => none

/-- Callers of `Do` on one group, with `zero` the zero value of the values. The table holds the
key of every flight in it; flights are numbered in the order they were registered, and `count`
were. `asked t` is the key caller `t` called with, `joined t` the flight it found in the table
for that key, if any, and `ctxErr t` the error of its context once that context is done. -/
structure DoCalls (κ ν : Type) where
  zero : ν
  asked : Nat → Option κ
  joined : Nat → Option Nat
  table : List (κ × Nat)
  flights : Nat → Option (DoFlight κ ν)
  count : Nat
  phase : Nat → DoPhase ν
  ctxErr : Nat → Option String

/-- What moves the callers: a step of caller `t`, or its context becoming done. -/
inductive DoEvent (κ ν : Type) where
  /-- Caller `t` calls with key `k`: the first locked section. -/
  | call (t : Nat) (k : κ)
  /-- The function of caller `t` returns. -/
  | ret (t : Nat) (value : ν) (error : Option String)
  /-- The function of caller `t` panics. -/
  | panic (t : Nat) (text : String)
  /-- The function of caller `t` ends its thread. -/
  | exit (t : Nat)
  /-- Caller `t` closes its flight. -/
  | publish (t : Nat)
  /-- Caller `t` takes its flight out of the table and ends: the last locked section. -/
  | release (t : Nat)
  /-- Caller `t`, a follower, sees its flight closed. -/
  | wake (t : Nat)
  /-- Caller `t`, a follower, sees its context done. -/
  | giveUp (t : Nat)
  /-- The context of caller `t` is done, with this error. -/
  | cancel (t : Nat) (error : String)

namespace DoCalls

variable {κ ν : Type}

/-- An idle group: no flight, and no caller has called. -/
def start (zero : ν) : DoCalls κ ν where
  zero := zero
  asked := fun _ => none
  joined := fun _ => none
  table := []
  flights := fun _ => none
  count := 0
  phase := fun _ => .idle
  ctxErr := fun _ => none

/-- The number of keys in flight. -/
def inFlight (s : DoCalls κ ν) : Nat := s.table.length

/-- Caller `t` moves to phase `p`. -/
def moveTo (s : DoCalls κ ν) (t : Nat) (p : DoPhase ν) : DoCalls κ ν :=
  { s with phase := Function.update s.phase t p }

@[simp] theorem moveTo_phase_self (s : DoCalls κ ν) (t : Nat) (p : DoPhase ν) :
    (s.moveTo t p).phase t = p := by
  simp [moveTo]

theorem moveTo_phase_of_ne (s : DoCalls κ ν) {t u : Nat} (p : DoPhase ν) (h : u ≠ t) :
    (s.moveTo t p).phase u = s.phase u := by
  simp [moveTo, h]

/-- Flight `f`, if registered, changes by `g`. -/
def updateFlight (s : DoCalls κ ν) (f : Nat) (g : DoFlight κ ν → DoFlight κ ν) :
    DoCalls κ ν :=
  { s with flights := Function.update s.flights f ((s.flights f).map g) }

/-- Caller `t`, asking for `k`, registers a new flight for it and leads it. -/
def register (s : DoCalls κ ν) (t : Nat) (k : κ) : DoCalls κ ν :=
  { s.moveTo t (.running s.count) with
    table := (k, s.count) :: s.table
    flights := Function.update s.flights s.count (some ⟨k, t, s.zero, none, false⟩)
    count := s.count + 1 }

/-- The function of caller `t` ended as `e`: its flight stores what the followers are to see. -/
def finish (s : DoCalls κ ν) (t : Nat) (e : FnEnd ν) : DoCalls κ ν :=
  match s.phase t with
  | .running f =>
    (s.moveTo t (.finishing f e)).updateFlight f fun fl =>
      { fl with value := (e.stored s.zero).1, error := (e.stored s.zero).2 }
  | _ => s

/-- When an event can happen. -/
def Enabled (s : DoCalls κ ν) : DoEvent κ ν → Prop
  | .call t _ => s.phase t = .idle
  | .ret t _ _ | .panic t _ | .exit t => ∃ f, s.phase t = .running f
  | .publish t => ∃ f e, s.phase t = .finishing f e
  | .release t => ∃ f e, s.phase t = .releasing f e
  | .wake t => ∃ f fl, s.phase t = .waiting f ∧ s.flights f = some fl ∧ fl.closed = true
  | .giveUp t => (∃ f, s.phase t = .waiting f) ∧ ∃ err, s.ctxErr t = some err
  | .cancel _ _ => True

variable [DecidableEq κ]

/-- The state an event leaves. -/
def next (s : DoCalls κ ν) : DoEvent κ ν → DoCalls κ ν
  | .call t k =>
    let s' := { s with
      asked := Function.update s.asked t (some k)
      joined := Function.update s.joined t (s.table.lookup k) }
    match s.table.lookup k with
    | some f => s'.moveTo t (.waiting f)
    | none => s'.register t k
  | .ret t v err => s.finish t (.returned v err)
  | .panic t text => s.finish t (.panicked text)
  | .exit t => s.finish t .exited
  | .publish t =>
    match s.phase t with
    | .finishing f e => (s.moveTo t (.releasing f e)).updateFlight f fun fl =>
      { fl with closed := true }
    | _ => s
  | .release t =>
    match s.phase t, s.asked t with
    | .releasing _ e, some k =>
      { s.moveTo t (.done e.leaderAnswer) with table := s.table.filter (·.1 != k) }
    | _, _ => s
  | .wake t =>
    match s.phase t with
    | .waiting f =>
      match s.flights f with
      | some fl => if fl.closed then s.moveTo t (.done (.returned fl.value fl.error true)) else s
      | none => s
    | _ => s
  | .giveUp t =>
    match s.phase t, s.ctxErr t with
    | .waiting _, some err => s.moveTo t (.done (.returned s.zero (some err) true))
    | _, _ => s
  | .cancel t err =>
    match s.ctxErr t with
    | some _ => s
    | none => { s with ctxErr := Function.update s.ctxErr t (some err) }

/-- One step: an event that can happen, and the state it leaves. -/
def Step (s s' : DoCalls κ ν) : Prop := ∃ e, s.Enabled e ∧ s' = s.next e

/-- The states runs reach from an idle group. -/
inductive Reachable : DoCalls κ ν → Prop
  | start (zero : ν) : Reachable (DoCalls.start zero)
  | step {s s' : DoCalls κ ν} : Reachable s → Step s s' → Reachable s'

end DoCalls

end RecencyMap
