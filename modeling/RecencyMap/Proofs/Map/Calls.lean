import RecencyMap.Proofs.Map.Naive
import RecencyMap.Session.Map

/-!
# Maps answer as the naive model

The calls a caller makes on a map: its own operations, listing with a limit, a drain that
stops after some items, taking an entry through a cursor at it, and the remove of a locked
map, which is the same take. `Lru.call` runs one on a map, exactly as a map session does;
`Naive.call` runs it on the model. A map built over a fresh index whose keys behave answers
every run of calls as the model does from the empty list, and the model's lists along the way
keep their keys apart and within the capacity.
-/

namespace RecencyMap

/-- A call on a map. -/
inductive MapCall (κ ν : Type) where
  | push (k : κ) (v : ν)
  | get (k : κ)
  | peek (k : κ)
  | contains (k : κ)
  | head
  | tail
  | len
  | isEmpty
  | keys
  | all (limit : Option Nat)
  | backward (limit : Option Nat)
  | extend (pairs : List (κ × ν))
  | drain (limit : Option Nat)
  /-- Take the entry of a key through a cursor at it. -/
  | takeEntry (k : κ)
  /-- The remove of a locked map: the value of the entry taken, if any. -/
  | remove (k : κ)

/-- What a call answers. -/
inductive MapAnswer (κ ν : Type) where
  | pushed (p : Pushed κ ν)
  | found (v : Option ν)
  | flag (b : Bool)
  | key (k : Option κ)
  | count (n : Nat)
  | keys (ks : List κ)
  | pairs (ps : List (κ × ν))
  | unit
  | taken (p : Option (κ × ν))

namespace Naive

variable {κ ν : Type} (eqv : κ → κ → Bool)

/-- The answer of the model to a call, and its pairs after it. -/
def call (cap : Nat) (ps : List (κ × ν)) : MapCall κ ν → MapAnswer κ ν × List (κ × ν)
  | .push k v => Prod.map MapAnswer.pushed id (push eqv cap ps k v)
  | .get k => Prod.map MapAnswer.found id (get eqv ps k)
  | .peek k => (.found ((find? eqv ps k).map Prod.snd), ps)
  | .contains k => (.flag (find? eqv ps k).isSome, ps)
  | .head => (.key (ps.head?.map Prod.fst), ps)
  | .tail => (.key (ps.getLast?.map Prod.fst), ps)
  | .len => (.count ps.length, ps)
  | .isEmpty => (.flag ps.isEmpty, ps)
  | .keys => (.keys (ps.map Prod.fst), ps)
  | .all limit => (.pairs (takeLimit limit ps), ps)
  | .backward limit => (.pairs (takeLimit limit ps.reverse), ps)
  | .extend pairs => (.unit, extend eqv cap ps pairs)
  | .drain limit => Prod.map MapAnswer.pairs id (drain ps limit)
  | .takeEntry k => Prod.map MapAnswer.taken id (take eqv ps k)
  | .remove k => Prod.map (fun p => MapAnswer.found (p.map Prod.snd)) id (take eqv ps k)

/-- Each call's answer with the pairs after it. -/
def runCalls (cap : Nat) (ps : List (κ × ν)) :
    List (MapCall κ ν) → List (Except String (MapAnswer κ ν) × List (κ × ν))
  | [] => []
  | c :: rest => (.ok (call eqv cap ps c).1, (call eqv cap ps c).2) ::
      runCalls cap (call eqv cap ps c).2 rest

end Naive

namespace Lru

variable {κ ν : Type} [BEq κ] [Hashable κ]

/-- Take out the entry of `k` through a cursor at it, as a caller holding the entry does. -/
def takeKey (m : Lru (SomeIndex κ) κ ν) (k : κ) :
    Except CursorFault (Option (κ × ν) × Lru (SomeIndex κ) κ ν) :=
  match m.entry? k with
  | none => .ok (none, m)
  | some cur => (fun (r : Traced (SomeIndex κ) κ ν _) => (some r.1.1, r.2.1)) <$> cur.take m true

/-- The answer of a map to a call and the map after it, or the text of the fault it raised. -/
def call (m : Lru (SomeIndex κ) κ ν) :
    MapCall κ ν → Except String (MapAnswer κ ν × Lru (SomeIndex κ) κ ν)
  | .push k v => changed .pushed (m.push k v)
  | .get k => changed .found (m.get k)
  | .peek k => read .found (m.peek k)
  | .contains k => .ok (.flag (m.contains k), m)
  | .head => read .key m.headKey
  | .tail => read .key m.tailKey
  | .len => .ok (.count m.size, m)
  | .isEmpty => .ok (.flag (m.size == 0), m)
  | .keys => .ok (.keys m.keys, m)
  | .all limit => .ok (.pairs (takeLimit limit m.toList), m)
  | .backward limit => .ok (.pairs (takeLimit limit m.toList.reverse), m)
  | .extend pairs => changed (fun _ => .unit) (m.extend pairs)
  | .drain limit => changed .pairs (m.drain limit)
  | .takeEntry k => taken .taken (m.takeKey k)
  | .remove k => taken (fun p => .found (p.map Prod.snd)) (m.takeKey k)
where
  /-- An operation that changes the map. -/
  changed {α : Type} (f : α → MapAnswer κ ν) :
      Except ArenaFault (Traced (SomeIndex κ) κ ν α) →
        Except String (MapAnswer κ ν × Lru (SomeIndex κ) κ ν)
    | .ok (a, m', _) => .ok (f a, m')
    | .error e => .error e.message
  /-- An operation that only reads. -/
  read {α : Type} (f : α → MapAnswer κ ν) :
      Except ArenaFault α → Except String (MapAnswer κ ν × Lru (SomeIndex κ) κ ν)
    | .ok a => .ok (f a, m)
    | .error e => .error e.message
  /-- A take through a cursor. -/
  taken (f : Option (κ × ν) → MapAnswer κ ν) :
      Except CursorFault (Option (κ × ν) × Lru (SomeIndex κ) κ ν) →
        Except String (MapAnswer κ ν × Lru (SomeIndex κ) κ ν)
    | .ok (p, m') => .ok (f p, m')
    | .error e => .error e.message

/-- Each call's answer, or the text of its fault, with the pairs after it; a call that faults
leaves the map as it was. -/
def runCalls (m : Lru (SomeIndex κ) κ ν) :
    List (MapCall κ ν) → List (Except String (MapAnswer κ ν) × List (κ × ν))
  | [] => []
  | c :: rest =>
    match m.call c with
    | .ok (a, m') => (.ok a, m'.toList) :: m'.runCalls rest
    | .error e => (.error e, m.toList) :: m.runCalls rest

variable {m : Lru (SomeIndex κ) κ ν}

/-- Taking the entry of a key answers as the model's take and leaves its pairs. -/
theorem Consistent.takeKey_naive (hc : m.Consistent) (k : κ) :
    ∃ m' es, m.takeKey k = .ok ((Naive.take m.index.eqv m.toList k).1, m') ∧
      m'.Follows m es ∧ es.map Recency.Entry.pair = (Naive.take m.index.eqv m.toList k).2 := by
  rw [toList_eq]
  rcases hc.lookup k with ⟨e, he, -, hfind, hn, hd⟩ | ⟨hfind, hn, hd⟩
  · obtain ⟨m', sigs, htake, hf⟩ := hc.cursor_take_live he (m.cursorAt e.slot) rfl true
    refine ⟨m', _, ?_, hf, ?_⟩
    · simp [takeKey, entry?, hfind, htake, Naive.take, hn, Functor.map, Except.map]
    · simp [Naive.take, hd]
  · refine ⟨m, _, ?_, hc.follows_self, ?_⟩
    · simp [takeKey, entry?, hfind, Naive.take, hn]
    · simp [Naive.take, hd]

/-- One call on a consistent map with room for an entry answers as the model does on the map's
pairs, and leaves a map that follows it and lists the model's pairs. -/
theorem Consistent.call_naive (hc : m.Consistent) (hcap : 0 < m.capacity) (c : MapCall κ ν) :
    ∃ m' es, m.call c = .ok ((Naive.call m.index.eqv m.capacity m.toList c).1, m') ∧
      m'.Follows m es ∧
      es.map Recency.Entry.pair = (Naive.call m.index.eqv m.capacity m.toList c).2 := by
  -- a call that only reads leaves the map, whose pairs are the model's
  have hsame : ∀ a, m.call c = .ok (a, m) → (Naive.call m.index.eqv m.capacity m.toList c) =
      (a, m.toList) → ∃ m' es,
        m.call c = .ok ((Naive.call m.index.eqv m.capacity m.toList c).1, m') ∧
        m'.Follows m es ∧
        es.map Recency.Entry.pair = (Naive.call m.index.eqv m.capacity m.toList c).2 := by
    intro a hcall hnaive
    exact ⟨m, _, by rw [hcall, hnaive], hc.follows_self, by rw [hnaive, toList_eq]⟩
  cases c with
  | push k v =>
    obtain ⟨m', sigs, es, h, hf, hes⟩ := hc.push_naive hcap k v
    exact ⟨m', es, by simp [call, call.changed, h, Naive.call], hf, by simp [Naive.call, hes]⟩
  | get k =>
    obtain ⟨m', sigs, es, h, hf, hes⟩ := hc.get_naive k
    exact ⟨m', es, by simp [call, call.changed, h, Naive.call], hf, by simp [Naive.call, hes]⟩
  | peek k => exact hsame _ (by simp [call, call.read, hc.peek_naive k]) rfl
  | contains k => exact hsame _ (by simp [call, hc.contains_naive k]) rfl
  | head => exact hsame _ (by simp [call, call.read, hc.headKey_naive]) rfl
  | tail => exact hsame _ (by simp [call, call.read, hc.tailKey_naive]) rfl
  | len => exact hsame _ (by simp [call, hc.size_naive]) rfl
  | isEmpty =>
    refine hsame _ rfl ?_
    simp only [Naive.call, hc.size_naive]
    cases m.toList <;> rfl
  | keys => exact hsame _ (by simp [call, keys_naive]) rfl
  | all limit => exact hsame _ rfl rfl
  | backward limit => exact hsame _ rfl rfl
  | extend pairs =>
    obtain ⟨m', sigs, es, h, hf, hes⟩ := hc.extend_naive hcap pairs
    exact ⟨m', es, by simp [call, call.changed, h, Naive.call], hf, by simp [Naive.call, hes]⟩
  | drain limit =>
    obtain ⟨m', sigs, es, h, hf, hes⟩ := hc.drain_naive limit
    exact ⟨m', es, by simp [call, call.changed, h, Naive.call], hf, by simp [Naive.call, hes]⟩
  | takeEntry k =>
    obtain ⟨m', es, h, hf, hes⟩ := hc.takeKey_naive k
    exact ⟨m', es, by simp [call, call.taken, h, Naive.call], hf, by simp [Naive.call, hes]⟩
  | remove k =>
    obtain ⟨m', es, h, hf, hes⟩ := hc.takeKey_naive k
    exact ⟨m', es, by simp [call, call.taken, h, Naive.call], hf, by simp [Naive.call, hes]⟩

/-- A run of calls on a consistent map with room for an entry answers as the model's run on
the map's pairs, and every list of pairs along it keeps its keys apart and within the
capacity. -/
theorem Consistent.runCalls_naive (hc : m.Consistent) (hcap : 0 < m.capacity)
    (calls : List (MapCall κ ν)) :
    m.runCalls calls = Naive.runCalls m.index.eqv m.capacity m.toList calls ∧
      ∀ r ∈ m.runCalls calls, Naive.Wf m.index.eqv m.capacity r.2 := by
  induction calls generalizing m with
  | nil => simp [runCalls, Naive.runCalls]
  | cons c rest ih =>
    obtain ⟨m', es, hcall, hf, hes⟩ := hc.call_naive hcap c
    have hcap' : 0 < m'.capacity := by
      rw [hf.capacity_eq]
      exact hcap
    have hlist : m'.toList = (Naive.call m.index.eqv m.capacity m.toList c).2 := by
      rw [toList_eq, hf.entries_eq, hes]
    -- the model after this call is the model of the map after it
    obtain ⟨hrun, hwf⟩ := ih hf.consistent hcap'
    have hwf' := hf.consistent.naive_wf
    rw [hf.capacity_eq, hf.eqv_eq] at hrun hwf hwf'
    rw [hlist] at hrun
    refine ⟨by simp [runCalls, Naive.runCalls, hcall, hrun, hlist], ?_⟩
    intro r hr
    simp only [runCalls, hcall, List.mem_cons] at hr
    rcases hr with rfl | hr
    · exact hwf'
    · exact hwf r hr

/-- A map built over a fresh index, of either kind, whose keys behave, with any capacity it
accepts, answers every run of calls as the naive model does from the empty list and lists the
model's pairs after each call; those pairs never hold two equivalent keys or more than the
capacity. -/
theorem runCalls_refines_naive {ix : SomeIndex κ}
    (hfresh : ix = .emptyHashed ∨ ∃ cmp, ix = .emptyOrdered cmp) (hlaw : ix.Lawful) {c : Int}
    (hlo : 1 ≤ c) (hhi : c ≤ maxCapacity) (calls : List (MapCall κ ν)) :
    ∃ m : Lru (SomeIndex κ) κ ν, Lru.create? c ix = .ok m ∧
      m.runCalls calls = Naive.runCalls ix.eqv c.toNat [] calls ∧
      ∀ r ∈ m.runCalls calls, Naive.Wf ix.eqv c.toNat r.2 := by
  have hcreate : (Lru.create? c ix : Except BuildError (Lru (SomeIndex κ) κ ν)) =
      .ok { arena := Arena.empty c.toNat, index := ix } := by
    have hlt : ¬ c < 1 := by omega
    have hgt : ¬ c > maxCapacity := by omega
    simp only [create?, hlt, hgt, if_false]
  have hc := consistent_create hcreate (SomeIndex.describes_empty hfresh hlaw)
  have hcap : 0 < (Arena.empty c.toNat : Arena κ ν).capacity := by
    show 0 < c.toNat
    omega
  obtain ⟨hrun, hwf⟩ := hc.runCalls_naive hcap calls
  exact ⟨_, hcreate, hrun, hwf⟩

/-- The witness: a hash map of capacity two over natural keys. -/
theorem runCalls_refines_naive_hashed :
    ((SomeIndex.emptyHashed : SomeIndex Nat) = .emptyHashed ∨
        ∃ cmp, (SomeIndex.emptyHashed : SomeIndex Nat) = .emptyOrdered cmp) ∧
      (SomeIndex.emptyHashed : SomeIndex Nat).Lawful ∧ (1 : Int) ≤ 2 ∧ (2 : Int) ≤ maxCapacity ∧
      ∃ m : Lru (SomeIndex Nat) Nat String, Lru.create? 2 SomeIndex.emptyHashed = .ok m ∧
        m.runCalls [.push 1 "a", .push 2 "b", .get 1, .push 3 "c"] =
          Naive.runCalls (SomeIndex.emptyHashed : SomeIndex Nat).eqv (2 : Int).toNat []
            [.push 1 "a", .push 2 "b", .get 1, .push 3 "c"] ∧
        ∀ r ∈ m.runCalls [.push 1 "a", .push 2 "b", .get 1, .push 3 "c"],
          Naive.Wf (SomeIndex.emptyHashed : SomeIndex Nat).eqv (2 : Int).toNat r.2 :=
  have hlaw : (SomeIndex.emptyHashed : SomeIndex Nat).Lawful := ⟨inferInstance, inferInstance⟩
  have hhi : (2 : Int) ≤ maxCapacity := by decide
  ⟨Or.inl rfl, hlaw, by decide, hhi,
    runCalls_refines_naive (Or.inl rfl) hlaw (by decide) hhi
      [.push 1 "a", .push 2 "b", .get 1, .push 3 "c"]⟩

end Lru

end RecencyMap
