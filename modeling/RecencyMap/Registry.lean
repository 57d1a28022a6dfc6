import RecencyMap.Quoted

/-!
# Metrics registry

A map can export its counters as four metric families: lookups that hit, lookups that
missed, pushes that displaced something (labelled by what they displaced), and the number of
resident entries. The families share a namespace, a subsystem and a set of constant labels.

Registering the families checks each descriptor in turn: a label name must be non-empty and
must not start with `__`, and no constant label may share the name of the variable label
`outcome`. Registering the same families twice is refused as a duplicate. Gathering lists the
families by name and, inside the labelled family, its series by label value; a series
appears once it has been counted.
-/

namespace RecencyMap

/-- Where the metric families are registered: namespace, subsystem and constant labels. -/
structure MetricNaming where
  ns : String
  sub : String
  labels : List (String × String)

/-- The kind of a metric family. -/
inductive MetricKind where
  | counter
  | gauge
  deriving DecidableEq, Repr

/-- One gathered series: family name, help text, kind, labels sorted by name, value. -/
structure Sample where
  name : String
  help : String
  kind : MetricKind
  labels : List (String × String)
  value : Nat

/-- The values behind the four families. -/
structure Counters where
  hits : Nat := 0
  misses : Nat := 0
  evictions : Nat := 0
  replacements : Nat := 0
  size : Nat := 0

namespace MetricNaming

/-- The full name of a family: the non-empty parts among namespace, subsystem and `name`,
joined by `_`. -/
def fullName (n : MetricNaming) (name : String) : String :=
  "_".intercalate ([n.ns, n.sub].filter (!·.isEmpty) ++ [name])

/-- Whether a label name is acceptable. -/
def validLabel (l : String) : Bool :=
  !l.isEmpty && !l.startsWith "__"

/-- The families in registration order: name, help and variable labels. -/
def families : List (String × String × List String) :=
  [("hits_total", "Get calls that found their key", []),
   ("misses_total", "Get calls that did not find their key", []),
   ("displaced_total", "Push calls that displaced state, by outcome", ["outcome"]),
   ("size_entries", "Number of resident entries", [])]

/-- The text of a refused descriptor. -/
def invalidDescriptor (fq help : String) (vars : List String) (why : String) : String :=
  let varText := String.intercalate "," vars
  s!"descriptor Desc\x7bfqName: {Quoted.quote fq}, help: {Quoted.quote help}, constLabels: \x7b\x7d, variableLabels: \x7b{varText}\x7d\x7d is invalid: " ++ why

/-- Lexicographic order on strings by their characters. -/
def before (a b : String) : Bool := compare a b == .lt

/-- Why the family `(name, help, vars)` cannot be described, if it cannot. -/
def check (n : MetricNaming) (family : String × String × List String) : Option String :=
  let (name, help, vars) := family
  let fq := n.fullName name
  let names := (n.labels.map Prod.fst).mergeSort fun a b => !before b a
  match names.find? (!validLabel ·) with
  | some bad =>
    some (invalidDescriptor fq help vars
      s!"{Quoted.quote bad} is not a valid label name for metric {Quoted.quote fq}")
  | none =>
    if vars.any (names.contains ·) then
      some (invalidDescriptor fq help vars
        s!"duplicate label names in constant and variable labels for metric {Quoted.quote fq}")
    else none

/-- Register the families, once or twice; the refusal text when registration fails. -/
def register? (n : MetricNaming) (twice : Bool) : Except String Unit :=
  match families.filterMap n.check with
  | why :: _ => .error why
  | [] => if twice then .error "duplicate metrics collector registration attempted" else .ok ()

/-- The constant labels sorted by name, with `extra` merged in. -/
def sortedLabels (n : MetricNaming) (extra : List (String × String)) : List (String × String) :=
  (n.labels ++ extra).mergeSort fun a b => !before b.1 a.1

/-- The gathered series, families by name and series by label value. -/
def gather (n : MetricNaming) (c : Counters) : List Sample :=
  let displaced := [("evicted", c.evictions), ("previous-value", c.replacements)].filter
    (·.2 > 0)
  let family (name help : String) := (n.fullName name, help)
  let (dn, dh) := family "displaced_total" "Push calls that displaced state, by outcome"
  let (hn, hh) := family "hits_total" "Get calls that found their key"
  let (mn, mh) := family "misses_total" "Get calls that did not find their key"
  let (sn, sh) := family "size_entries" "Number of resident entries"
  displaced.map (fun (o, v) =>
      { name := dn, help := dh, kind := .counter, labels := n.sortedLabels [("outcome", o)],
        value := v }) ++
  [{ name := hn, help := hh, kind := .counter, labels := n.sortedLabels [], value := c.hits },
   { name := mn, help := mh, kind := .counter, labels := n.sortedLabels [], value := c.misses },
   { name := sn, help := sh, kind := .gauge, labels := n.sortedLabels [], value := c.size }]

end MetricNaming

end RecencyMap
