import RecencyMap.Bench.Flags
import RecencyMap.RangeQuery
import RecencyMap.Quoted

/-!
# Benchmark program

A load generator for recency maps. It reads its settings from flags, builds a map of the
asked variant, preloads it with keys `0, 1, …` (half the capacity unless told otherwise),
then lets workers run a mix of writes, range queries and reads for the asked duration, and
reports the counts.

The workload stands for a timed run: each worker makes a fixed budget of operations, drawing
its choices and keys from its own generator seeded by the seed and the worker's number. Keys
lie in `[0, keys - 1]`. A run whose duration is not positive makes no operations. A key
distribution needs a skew above 1 and an offset of at least 1; without one, a positive run
crashes at its first draw.

Log lines are the text records of a leveled logger without their time field: the build error,
the warning that range queries need the ordered variant, and, when verbose, one debug record
per eviction.
-/

namespace RecencyMap

namespace Bench

open Numerals

/-- What the surroundings decide when no flag does: the processor count (workers default to
twice it) and the clock reading that seeds the generators. -/
structure Surroundings where
  processors : Nat
  clockSeed : Int

/-- The settings of a run. -/
structure Settings where
  capacity : Int
  variant : String
  hasher : String
  workers : Int
  duration : Int
  reads : Int
  ranges : Int
  window : Int
  keys : Int
  zipfS : FloatLit
  zipfV : FloatLit
  seed : Int
  preload : Int
  verbose : Bool

/-- The flags and the kinds of their values. -/
def flagSpecs : List (String × FlagKind) :=
  [("cap", .integer), ("variant", .text), ("hasher", .text), ("workers", .integer),
   ("duration", .duration), ("reads", .integer), ("ranges", .integer), ("window", .integer),
   ("keys", .integer), ("zipf_s", .real), ("zipf_v", .real), ("seed", .integer),
   ("preload", .integer), ("pprof", .text), ("http", .text), ("v", .switch)]

/-- The settings when no flag is given. -/
def defaults (env : Surroundings) : Settings :=
  { capacity := 100000, variant := "hash", hasher := "builtin", workers := 2 * env.processors,
    duration := 10000000000, reads := 80, ranges := 0, window := 64, keys := 1000000,
    zipfS := .finite false 11 false (-1), zipfV := .finite false 1 false 0,
    seed := env.clockSeed, preload := 0, verbose := false }

/-- Apply one flag assignment. -/
def Settings.assign (s : Settings) : String × FlagValue → Settings
  | ("cap", .integer n) => { s with capacity := n }
  | ("variant", .text t) => { s with variant := t }
  | ("hasher", .text t) => { s with hasher := t }
  | ("workers", .integer n) => { s with workers := n }
  | ("duration", .duration d) => { s with duration := d }
  | ("reads", .integer n) => { s with reads := n }
  | ("ranges", .integer n) => { s with ranges := n }
  | ("window", .integer n) => { s with window := n }
  | ("keys", .integer n) => { s with keys := n }
  | ("zipf_s", .real x) => { s with zipfS := x }
  | ("zipf_v", .real x) => { s with zipfV := x }
  | ("seed", .integer n) => { s with seed := n }
  | ("preload", .integer n) => { s with preload := n }
  | ("v", .switch b) => { s with verbose := b }
  | _ => s

/-- The map a run uses. -/
abbrev BenchMap := Lru (SomeIndex Int) Int String

/-- Build the map the settings ask for, or say why not. -/
def Settings.build? (s : Settings) : Except String BenchMap :=
  let make (index : SomeIndex Int) : Except String BenchMap :=
    (Lru.create? s.capacity index).mapError BuildError.message
  match s.variant with
  | "hash" =>
    if ["builtin", "fnv", "xxhash"].contains s.hasher then make SomeIndex.emptyHashed
    else .error s!"unknown hasher {Quoted.quote s.hasher} (use builtin, fnv or xxhash)"
  | "ordered" => make (SomeIndex.emptyOrdered compare)
  | v => .error s!"unknown variant {Quoted.quote v} (use hash or ordered)"

/-- A log record without its time: level, message, then fields. -/
def logLine (level message : String) (fields : List (String × String)) : String :=
  " ".intercalate (s!"level={level}" :: s!"msg={Quoted.logText message}" ::
    fields.map fun (k, v) => s!"{k}={v}")

/-- The debug records of the evictions among some signals. -/
def evictionLines (sigs : List (Signal Int String)) : List String :=
  sigs.filterMap fun
    | .evicted k _ n g =>
      some (logLine "DEBUG" "evicted least recently used entry"
        [("key", toString k), ("len", toString n), ("generation", toString g)])
    | _ => none

/-- Push `count` keys starting at `next`, keeping the debug records when verbose. -/
def preloadFrom (verbose : Bool) : Nat → Nat → BenchMap × Array String →
    Except ArenaFault (BenchMap × Array String)
  | 0, _, acc => .ok acc
  | count + 1, next, (m, log) => do
    let (_, m, sigs) ← m.push next s!"v{next}"
    preloadFrom verbose count (next + 1)
      (m, if verbose then log ++ (evictionLines sigs).toArray else log)

/-- A splittable 64-bit generator. -/
structure Generator where
  state : UInt64

/-- The next number of the generator and the generator after it. -/
def Generator.next (g : Generator) : UInt64 × Generator :=
  let s := g.state + 0x9E3779B97F4A7C15
  let z := (s ^^^ (s >>> 30)) * 0xBF58476D1CE4E5B9
  let z := (z ^^^ (z >>> 27)) * 0x94D049BB133111EB
  (z ^^^ (z >>> 31), { state := s })

/-- The counts a run reports. -/
structure Counts where
  ops : Nat := 0
  reads : Nat := 0
  writes : Nat := 0
  ranges : Nat := 0
  hits : Nat := 0
  misses : Nat := 0

/-- How many operations a run that reaches its workers makes in all. -/
def runBudget : Nat := 16384

/-- Each worker's share of the run's operations, at least one. -/
def workerBudget (workers : Nat) : Nat := max 1 (runBudget / workers)

/-- The shortest run, in nanoseconds, whose workers take a step: a shorter deadline has
passed before the first worker looks at it, so the run does nothing. -/
def shortestRun : Int := 1000

/-- A key drawn uniformly from `[0, keys - 1]`, the range taken as an unsigned 64-bit span
(so a non-positive `keys` spans every word) and the word read back as a signed integer. -/
def drawKey (keys : Int) (g : Generator) : Int × Generator :=
  let (r, g) := g.next
  let span : Nat := ((keys - 1) % Int.ofNat (Nat.pow 2 64)).toNat + 1
  let w := r.toNat % span
  (if w ≥ Nat.pow 2 63 then (w : Int) - Int.ofNat (Nat.pow 2 64) else w, g)

/-- The state a worker threads through its operations. -/
structure Run where
  map : BenchMap
  counts : Counts
  log : Array String

/-- One operation of a worker: write when the first draw is at least the read share, else a
range query on an ordered map when the second draw is below the range share, else a read. -/
def step (s : Settings) (ordered : Bool) (run : Run) (g : Generator) :
    Except ArenaFault (Run × Generator) := do
  let ⟨m, c, log⟩ := run
  let c := { c with ops := c.ops + 1 }
  let (pick, g) := g.next
  if ((pick % 100).toNat : Int) ≥ s.reads then
    let (k, g) := drawKey s.keys g
    let (v, g) := g.next
    let (_, m, sigs) ← m.push k s!"v{v.toNat % Nat.pow 2 63}"
    let log := if s.verbose then log ++ (evictionLines sigs).toArray else log
    return ({ map := m, counts := { c with writes := c.writes + 1 }, log := log }, g)
  else
    let (second, g') := g.next
    if ordered && ((second % 100).toNat : Int) < s.ranges then
      -- a range query only reads, so only its key draw and its count are kept
      let (_, g') := drawKey s.keys g'
      return ({ map := m, counts := { c with ranges := c.ranges + 1 }, log := log }, g')
    else
      let g := if ordered then g' else g
      let (k, g) := drawKey s.keys g
      let (found, m, _) ← m.get k
      let c := { c with reads := c.reads + 1 }
      let c := if found.isSome then { c with hits := c.hits + 1 }
        else { c with misses := c.misses + 1 }
      return ({ map := m, counts := c, log := log }, g)

/-- A worker's budget of operations. -/
def work (s : Settings) (ordered : Bool) : Nat → Run → Generator → Except ArenaFault Run
  | 0, run, _ => .ok run
  | n + 1, run, g => do
    let (run, g) ← step s ordered run g
    work s ordered n run g

/-- Run the workers one after another, each making `budget` operations. -/
def workers (s : Settings) (ordered : Bool) (budget : Nat) : List Nat → Run → Except ArenaFault Run
  | [], run => .ok run
  | w :: rest, run => do
    let seed := s.seed + w * 9973
    let g : Generator := { state := UInt64.ofNat (seed % Int.ofNat (Nat.pow 2 64)).toNat }
    workers s ordered budget rest (← work s ordered budget run g)

/-- What a finished run prints: its settings and counts, and the final size. -/
structure Result where
  settings : Settings
  workers : Nat
  counts : Counts
  size : Nat

/-- What the program did: its exit code, its log lines, and its result when it finished. -/
structure Report where
  exit : Nat
  stderr : List String
  result : Option Result

/-- `n / d` as a percentage with two decimals, rounded half to even. -/
def percentText (n d : Nat) : String :=
  if d == 0 then "0.00"
  else
    let scaled := n * 10000
    let q := scaled / d
    let r := scaled % d
    let q := if 2 * r > d || (2 * r == d && q % 2 == 1) then q + 1 else q
    let frac := toString (q % 100)
    s!"{q / 100}." ++ (if frac.length < 2 then "0" ++ frac else frac)

/-- The fraction digits of `v / 10^prec` without trailing zeros (with their point, or empty),
and the whole part. -/
def fractionText (v prec : Nat) : String × Nat :=
  let digits := toString (v % Nat.pow 10 prec)
  let padded := String.ofList (List.replicate (prec - digits.length) '0') ++ digits
  let trimmed := (padded.toList.reverse.dropWhile (· == '0')).reverse
  (if trimmed.isEmpty then "" else "." ++ String.ofList trimmed, v / Nat.pow 10 prec)

/-- A duration in nanoseconds as a clock prints it: `0s`, `750ns`, `1.5µs`, `12ms`,
`1h2m3.5s`. -/
def durationText (d : Int) : String :=
  let u := d.natAbs
  let sign := if d < 0 then "-" else ""
  if u == 0 then "0s"
  else if u < 1000000000 then
    let (unit, prec) := if u < 1000 then ("ns", 0) else if u < 1000000 then ("µs", 3)
      else ("ms", 6)
    let (frac, whole) := fractionText u prec
    sign ++ toString whole ++ frac ++ unit
  else
    let (frac, secs) := fractionText u 9
    let sText := toString (secs % 60) ++ frac ++ "s"
    let mins := secs / 60
    if mins == 0 then sign ++ sText
    else
      let mText := toString (mins % 60) ++ "m" ++ sText
      let hours := mins / 60
      if hours == 0 then sign ++ mText else sign ++ toString hours ++ "h" ++ mText

namespace Result

/-- The settings part of the first report line, before and after the elapsed time. -/
def headerParts (r : Result) : String × String :=
  let s := r.settings
  (s!"variant={s.variant} hasher={s.hasher} cap={s.capacity} workers={r.workers} keys={s.keys}",
   s!"seed={s.seed}")

/-- The first report line without its elapsed time. -/
def header (r : Result) : String :=
  let (before, after) := r.headerParts
  before ++ " " ++ after

/-- The hit rate of plain reads, as printed. -/
def hitRate (r : Result) : String := percentText r.counts.hits r.counts.reads ++ "%"

/-- Whether every operation was counted as a read, a write or a range query. -/
def opsAddUp (r : Result) : Bool :=
  r.counts.ops == r.counts.reads + r.counts.writes + r.counts.ranges

/-- Whether every read was counted as a hit or a miss. -/
def readsAddUp (r : Result) : Bool :=
  r.counts.hits + r.counts.misses == r.counts.reads

/-- Operations per second over the run's duration, rounded half to even. -/
def rate (r : Result) : String :=
  let d := r.settings.duration
  if d ≤ 0 || r.counts.ops == 0 then "0"
  else
    let n := r.counts.ops * 1000000000
    let d := d.toNat
    let q := n / d
    let rem := n % d
    toString (if 2 * rem > d || (2 * rem == d && q % 2 == 1) then q + 1 else q)

/-- The four report lines, the run's duration standing for its elapsed time. -/
def lines (r : Result) : List String :=
  let (before, after) := r.headerParts
  let c := r.counts
  [before ++ s!" dur={durationText (max r.settings.duration 0)} " ++ after,
   s!"ops={c.ops} ({r.rate} ops/s)  reads={c.reads}  writes={c.writes}  ranges={c.ranges}",
   s!"hits={c.hits}  misses={c.misses}  hit-rate={r.hitRate}",
   s!"Len()={r.size}"]

end Result

/-- Run the program on its arguments. -/
def run (env : Surroundings) (args : List String) : Report :=
  match parseFlags flagSpecs args with
  | .error .help => { exit := 0, stderr := [], result := none }
  | .error e => { exit := 2, stderr := [e.message], result := none }
  | .ok assignments =>
    let s := assignments.foldl Settings.assign (defaults env)
    match s.build? with
    | .error why =>
      { exit := 2, stderr := [logLine "ERROR" "build map" [("err", Quoted.logText why)]],
        result := none }
    | .ok m =>
      let ordered := s.variant == "ordered"
      let warn := if !ordered && s.ranges > 0 then
        [logLine "WARN" "range queries need -variant=ordered; ignoring -ranges" []] else []
      let pl := if s.preload == 0 then s.capacity / 2 else s.preload
      match preloadFrom s.verbose pl.toNat 0 (m, #[]) with
      | .error e => { exit := 2, stderr := warn ++ [s!"panic: {e.message}"], result := none }
      | .ok (m, log) =>
        let stderr := warn ++ log.toList
        let workersN := if s.workers ≤ 0 then 1 else s.workers.toNat
        let busy := s.duration ≥ shortestRun
        if busy && (s.zipfS.atMostOne || s.zipfV.belowOne) then
          { exit := 2, stderr := stderr ++ ["panic: rand: nil Zipf"], result := none }
        else
          let run : Run := { map := m, counts := {}, log := #[] }
          let run := if busy then
              workers s ordered (workerBudget workersN) (List.range workersN) run
            else .ok run
          match run with
          | .error e => { exit := 2, stderr := stderr ++ [s!"panic: {e.message}"], result := none }
          | .ok run =>
            { exit := 0, stderr := stderr ++ run.log.toList,
              result := some { settings := s, workers := workersN, counts := run.counts,
                               size := run.map.size } }

end Bench

end RecencyMap
