/-!
# Single-flight calls

A group runs at most one call per key at a time. A call whose key is free leads: it marks
the key in flight, runs its work, and frees the key however the work ends. A call whose key
is already in flight follows; here every follower waits with a context that is already
cancelled, so it gives up at once with the cancellation as its error and `shared` set.

The work of a call first makes its nested calls, in order, while its own key is in flight;
then it exits its thread, panics, fails with an error, or returns a value. A panic or an exit
inside a nested call ends that nested call only.
-/

namespace RecencyMap

/-- A call to make on a group: its key, what its work does, and its nested calls. -/
inductive FlightCall where
  | mk (key : String) (value : String) (error : Option String) (panic : Option String)
      (goexit : Bool) (nested : List FlightCall)

/-- How a call ended. -/
inductive FlightResult where
  /-- The work returned `value` and maybe an error; `shared` says whether it was another
  caller's result. -/
  | returned (value : String) (error : Option String) (shared : Bool) (nested : List FlightResult)
  /-- The work ended its thread after its nested calls. -/
  | exited (nested : List FlightResult)
  /-- The work panicked with this text, which the leader raises again. -/
  | panicked (text : String)

/-- The result of a follower whose context was already cancelled. -/
def FlightResult.cancelled : FlightResult :=
  .returned "" (some "context canceled") true []

namespace FlightCall

mutual

/-- Make a call with `inFlight` the keys already in flight; return its result and the keys
in flight afterwards. -/
def run (inFlight : List String) : FlightCall → FlightResult × List String
  | .mk key value error panic goexit nested =>
    if inFlight.contains key then (.cancelled, inFlight)
    else
      let (inner, _) := runAll (key :: inFlight) nested
      let result :=
        if goexit then .exited inner
        else match panic with
          | some text => .panicked text
          | none => .returned value error false inner
      (result, inFlight)

/-- Make calls one after another. -/
def runAll (inFlight : List String) : List FlightCall → List FlightResult × List String
  | [] => ([], inFlight)
  | c :: rest =>
    let (r, inFlight) := run inFlight c
    let (rs, inFlight) := runAll inFlight rest
    (r :: rs, inFlight)

end

end FlightCall

/-- Make top-level calls one after another on an idle group; each result comes with the
number of keys in flight after it. -/
def runFlights (calls : List FlightCall) : List (FlightResult × Nat) :=
  let rec go (inFlight : List String) : List FlightCall → List (FlightResult × Nat)
    | [] => []
    | c :: rest =>
      let (r, inFlight) := c.run inFlight
      (r, inFlight.length) :: go inFlight rest
  go [] calls

end RecencyMap
