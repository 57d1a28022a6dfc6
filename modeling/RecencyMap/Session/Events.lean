import RecencyMap.Lru
import RecencyMap.Registry

/-!
# Observed events

What the observers of a map see, derived from the signals its operations report. A counter
observer records hits, misses, evictions, replacements and sizes; an eviction observer
receives each evicted entry; a debug log records evictions (key, size, generation) and drains
(count, remaining). A metrics registry, when installed in place of the counter observer,
tallies the same signals into its families.

An eviction is seen in this order: the counter, then the log record, then the eviction
observer.
-/

namespace RecencyMap

/-- Which observers are installed. -/
structure Observers where
  counters : Bool
  onEvict : Bool
  log : Bool
  registry : Bool

/-- A counter observer's record. -/
inductive Metric where
  | hit
  | miss
  | evict
  | replace
  | size (n : Nat)
  deriving DecidableEq, Repr

/-- The value of a field of a log record. -/
inductive LogField (κ : Type) where
  | key (k : κ)
  | num (n : Nat)

/-- One thing an observer saw. -/
inductive Event (κ ν : Type) where
  | metric (m : Metric)
  | evicted (k : κ) (v : ν)
  | load (k : κ)
  | log (message : String) (fields : List (String × LogField κ))

namespace Observers

variable {κ ν : Type}

/-- Whether the counter observer records: it is replaced by a registry when one is installed. -/
def recording (o : Observers) : Bool := o.counters && !o.registry

/-- The events one signal produces, in order. -/
def events (o : Observers) : Signal κ ν → List (Event κ ν)
  | .hit => if o.recording then [.metric .hit] else []
  | .miss => if o.recording then [.metric .miss] else []
  | .replaced => if o.recording then [.metric .replace] else []
  | .resized n => if o.recording then [.metric (.size n)] else []
  | .evicted k v n g =>
    (if o.recording then [.metric .evict] else []) ++
    (if o.log then
      [.log "evicted least recently used entry" [("key", .key k), ("len", .num n),
        ("generation", .num g)]]
     else []) ++
    (if o.onEvict then [.evicted k v] else [])
  | .drained c r =>
    if o.log then [.log "drained entries" [("count", .num c), ("remaining", .num r)]] else []

end Observers

/-- The registry's values after one more signal. -/
def Counters.tally {κ ν : Type} (c : Counters) : Signal κ ν → Counters
  | .hit => { c with hits := c.hits + 1 }
  | .miss => { c with misses := c.misses + 1 }
  | .replaced => { c with replacements := c.replacements + 1 }
  | .resized n => { c with size := n }
  | .evicted .. => { c with evictions := c.evictions + 1 }
  | .drained .. => c

end RecencyMap
