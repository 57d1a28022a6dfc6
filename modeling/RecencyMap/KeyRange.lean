import RecencyMap.KeyIndex

/-!
# Key ranges

A range has a lower and an upper end, each unbounded, included or excluded. A scan over keys
in ascending order starts at the first key not below the lower end, passes over a key equal
to an excluded lower end, and stops at the first key past the upper end or equal to an
excluded one. An inverted range therefore visits nothing. `range` scans with a callback that
can end the scan early; `scan` lists what a scan whose callback never stops visits.
-/

namespace RecencyMap

/-- One end of a key range. -/
inductive Bound (κ : Type) where
  | unbounded
  | included (key : κ)
  | excluded (key : κ)

/-- A range of keys under some comparator. -/
structure KeyRange (κ : Type) where
  lower : Bound κ
  upper : Bound κ

namespace KeyRange

variable {κ α : Type}

/-- The keys from `lo` to `hi`, both included. -/
def between (lo hi : κ) : KeyRange κ := ⟨.included lo, .included hi⟩

/-- The keys from `lo` included to `hi` excluded. -/
def halfOpen (lo hi : κ) : KeyRange κ := ⟨.included lo, .excluded hi⟩

/-- The keys from `lo` on. -/
def atLeast (lo : κ) : KeyRange κ := ⟨.included lo, .unbounded⟩

/-- The keys up to `hi` included. -/
def atMost (hi : κ) : KeyRange κ := ⟨.unbounded, .included hi⟩

/-- The keys below `hi`. -/
def below (hi : κ) : KeyRange κ := ⟨.unbounded, .excluded hi⟩

/-- Every key. -/
def everything : KeyRange κ := ⟨.unbounded, .unbounded⟩

/-- Whether `k` comes before the point where a scan starts. -/
def precedes (cmp : κ → κ → Ordering) (r : KeyRange κ) (k : κ) : Bool :=
  match r.lower with
  | .unbounded => false
  | .included lo | .excluded lo => cmp k lo == .lt

/-- Whether a scan passes over `k` without visiting it: `k` equals an excluded lower end. -/
def passes (cmp : κ → κ → Ordering) (r : KeyRange κ) (k : κ) : Bool :=
  match r.lower with
  | .excluded lo => cmp k lo == .eq
  | _ => false

/-- Whether `k` lies within the upper end. -/
def underUpper (cmp : κ → κ → Ordering) (r : KeyRange κ) (k : κ) : Bool :=
  match r.upper with
  | .unbounded => true
  | .included hi => cmp k hi != .gt
  | .excluded hi => cmp k hi == .lt

/-- The entries a scan visits, given all entries in ascending key order. -/
def scan (cmp : κ → κ → Ordering) (r : KeyRange κ) (entries : List (κ × α)) : List (κ × α) :=
  ((entries.dropWhile fun e => r.precedes cmp e.1).takeWhile
      fun e => r.passes cmp e.1 || r.underUpper cmp e.1).filter
    fun e => !r.passes cmp e.1

/-- What a scan does at an entry: it passes over a key equal to an excluded lower end, stops at
a key past the upper end, and otherwise calls `fn`, whose answer says whether to go on. -/
def visit {m : Type → Type} [Monad m] (cmp : κ → κ → Ordering) (r : KeyRange κ)
    (fn : κ → α → m Bool) (e : κ × α) : m Bool :=
  if r.passes cmp e.1 then pure true
  else if r.underUpper cmp e.1 then fn e.1 e.2
  else pure false

/-- Scan a search tree with a callback: visit its entries in ascending key order, from the first
one not below the lower end (the first one when it is unbounded), until a visit answers
`false`. -/
def range {m : Type → Type} [Monad m] {cmp : κ → κ → Ordering} (r : KeyRange κ)
    (t : Std.TreeMap κ α cmp) (fn : κ → α → m Bool) : m Unit :=
  discard <| (t.toList.dropWhile fun e => r.precedes cmp e.1).allM (r.visit cmp fn)

/-- The entries of a search tree that a scan of `r` visits, in ascending order. -/
def inTree {cmp : κ → κ → Ordering} (r : KeyRange κ) (t : Std.TreeMap κ α cmp) :
    List (κ × α) :=
  r.scan cmp t.toList

end KeyRange

namespace SomeIndex

variable {κ : Type} [BEq κ] [Hashable κ]

/-- The keys and slots a scan of `r` visits, or `none` for a hash index, which has no order. -/
def scan? : SomeIndex κ → KeyRange κ → Option (List (κ × Slot))
  | .hashed _, _ => none
  | .ordered _ t, r => some (r.inTree t)

end SomeIndex

end RecencyMap
