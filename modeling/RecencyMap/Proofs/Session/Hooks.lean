import RecencyMap.Proofs.Session.Runs

/-!
# What the observers see

Each operation of a map reports signals, and each installed observer turns them into events:
the counter observer records hits, misses, replacements, evictions and sizes; the debug log
records evictions and drains; the eviction observer is handed each evicted entry.

`Lru.Observed obs m ops m' evs` says that `ops`, done one after another from `m`, lead to `m'`,
each as documented, and that `evs` are the events the observers saw: the events of each
operation read off the map that operation leaves, which is consistent, whose size and
generation the events carry, and from which an evicted key is already gone.

Over a run of a script every step's report is observed this way, and so is the whole run. The
counts follow: the evictions recorded and the entries handed to the eviction observer are the
evicting pushes, the replacements recorded are the pushes of present keys, the hits and misses
are the reads, and the last size recorded is the size of the map.
-/

namespace RecencyMap

/-! ## What a signal, an event and an operation carry -/

namespace Signal

variable {κ ν : Type}

/-- The counter record a signal makes, if it makes one. -/
def metric? : Signal κ ν → Option Metric
  | .hit => some .hit
  | .miss => some .miss
  | .replaced => some .replace
  | .resized n => some (.size n)
  | .evicted .. => some .evict
  | .drained .. => none

/-- The entry a signal reports evicted, if it reports one. -/
def evicted? : Signal κ ν → Option (κ × ν)
  | .evicted k v _ _ => some (k, v)
  | _ => none

end Signal

/-- The size a counter record reports, if it reports one. -/
def Metric.size? : Metric → Option Nat
  | .size n => some n
  | _ => none

namespace Event

variable {κ ν : Type}

/-- The counter record an event is, if it is one. -/
def metric? : Event κ ν → Option Metric
  | .metric m => some m
  | _ => none

/-- The entry an event hands to the eviction observer, if it is such a call. -/
def evicted? : Event κ ν → Option (κ × ν)
  | .evicted k v => some (k, v)
  | _ => none

end Event

namespace MapOp

variable {κ ν : Type}

/-- The entry a push evicted, if the operation is such a push. -/
def evicted? : MapOp κ ν → Option (κ × ν)
  | .push _ (.evicted k v) => some (k, v)
  | _ => none

/-- Whether the operation is a push that evicted. -/
def evicts (op : MapOp κ ν) : Bool := op.evicted?.isSome

/-- Whether the operation is a push of a present key, which replaced its value. -/
def replaces : MapOp κ ν → Bool
  | .push _ (.replaced _ _) => true
  | _ => false

/-- Whether the operation is a read of a key. -/
def reads : MapOp κ ν → Bool
  | .get _ _ => true
  | _ => false

/-- Whether the operation is a read that found its key. -/
def hits : MapOp κ ν → Bool
  | .get _ true => true
  | _ => false

/-- Whether the operation is a read that did not find its key. -/
def misses : MapOp κ ν → Bool
  | .get _ false => true
  | _ => false

/-- Every read either hits or misses. -/
theorem countP_hits_add_misses (ops : List (MapOp κ ν)) :
    ops.countP hits + ops.countP misses = ops.countP reads := by
  induction ops with
  | nil => rfl
  | cons op ops ih =>
    simp only [List.countP_cons]
    cases op with
    | get k found => cases found <;> simp [hits, misses, reads] <;> omega
    | _ => simpa [hits, misses, reads] using ih

end MapOp

/-! ## From signals to events -/

namespace Observers

variable {κ ν : Type} (o : Observers)

/-- The counter records of a signal's events are its own record, when the counter observer
records. -/
theorem filterMap_metric_events (s : Signal κ ν) :
    (o.events s).filterMap Event.metric? = if o.recording then s.metric?.toList else [] := by
  cases s <;> simp only [events] <;> split_ifs <;> rfl

/-- The eviction observer is handed the entry a signal reports evicted, when it is installed. -/
theorem filterMap_evicted_events (s : Signal κ ν) :
    (o.events s).filterMap Event.evicted? = if o.onEvict then s.evicted?.toList else [] := by
  cases s <;> simp only [events] <;> split_ifs <;> rfl

theorem filterMap_metric_flatMap (sigs : List (Signal κ ν)) :
    (sigs.flatMap o.events).filterMap Event.metric? =
      if o.recording then sigs.filterMap Signal.metric? else [] := by
  induction sigs with
  | nil => split <;> rfl
  | cons s sigs ih =>
    rw [List.flatMap_cons, List.filterMap_append, ih, filterMap_metric_events,
      List.filterMap_cons]
    split
    · cases s.metric? <;> rfl
    · rfl

theorem filterMap_evicted_flatMap (sigs : List (Signal κ ν)) :
    (sigs.flatMap o.events).filterMap Event.evicted? =
      if o.onEvict then sigs.filterMap Signal.evicted? else [] := by
  induction sigs with
  | nil => split <;> rfl
  | cons s sigs ih =>
    rw [List.flatMap_cons, List.filterMap_append, ih, filterMap_evicted_events,
      List.filterMap_cons]
    split
    · cases s.evicted? <;> rfl
    · rfl

end Observers

/-! ## What one operation shows -/

namespace MapOp

variable {κ ν : Type} (obs : Observers) (n g : Nat) (op : MapOp κ ν)

/-- The counter records an operation shows are those of its signals, when the counter observer
records; a call of the loader shows none. -/
theorem filterMap_metric_events :
    (op.events obs n g).filterMap Event.metric? =
      if obs.recording then (op.signals n g).filterMap Signal.metric? else [] := by
  cases op with
  | load k => split <;> rfl
  | _ => exact obs.filterMap_metric_flatMap _

/-- The eviction observer is handed the entry an operation evicted, when it is installed. -/
theorem filterMap_evicted_events :
    (op.events obs n g).filterMap Event.evicted? =
      if obs.onEvict then op.evicted?.toList else [] := by
  have hsig : (op.signals n g).filterMap Signal.evicted? = op.evicted?.toList := by
    cases op with
    | push k p => cases p <;> rfl
    | get k found => cases found <;> rfl
    | drained c => simp only [signals]; split <;> rfl
    | _ => rfl
  cases op with
  | load k => split <;> rfl
  | _ => rw [← hsig]; exact obs.filterMap_evicted_flatMap _

/-- The counter records of one operation's signals: an eviction for a push that evicted, a
replacement for a push of a present key, a hit or a miss for a read, and sizes equal to the
number of entries after it. -/
theorem count_evict : ((op.signals n g).filterMap Signal.metric?).count .evict =
    if op.evicts then 1 else 0 := by
  cases op with
  | push k p => cases p <;> rfl
  | get k found => cases found <;> rfl
  | drained c => simp only [signals]; split <;> rfl
  | _ => rfl

theorem count_replace : ((op.signals n g).filterMap Signal.metric?).count .replace =
    if op.replaces then 1 else 0 := by
  cases op with
  | push k p => cases p <;> rfl
  | get k found => cases found <;> rfl
  | drained c => simp only [signals]; split <;> rfl
  | _ => rfl

theorem count_hit : ((op.signals n g).filterMap Signal.metric?).count .hit =
    if op.hits then 1 else 0 := by
  cases op with
  | push k p => cases p <;> rfl
  | get k found => cases found <;> rfl
  | drained c => simp only [signals]; split <;> rfl
  | _ => rfl

theorem count_miss : ((op.signals n g).filterMap Signal.metric?).count .miss =
    if op.misses then 1 else 0 := by
  cases op with
  | push k p => cases p <;> rfl
  | get k found => cases found <;> rfl
  | drained c => simp only [signals]; split <;> rfl
  | _ => rfl

/-- Every size an operation's signals record is the number of entries after it. -/
theorem eq_of_mem_sizes {x : Nat}
    (hx : x ∈ ((op.signals n g).filterMap Signal.metric?).filterMap Metric.size?) : x = n := by
  cases op with
  | push k p => cases p <;> simp_all [signals, Signal.metric?, Metric.size?]
  | take k => simp_all [signals, Signal.metric?, Metric.size?]
  | get k found => cases found <;> simp_all [signals, Signal.metric?, Metric.size?]
  | drained c =>
    simp only [signals] at hx
    split at hx <;> simp_all [Signal.metric?]
  | _ => simp_all [signals]

/-- An operation whose signals record no size leaves the number of entries. -/
theorem sizeAfter_of_sizes_nil
    (hnone : ((op.signals n g).filterMap Signal.metric?).filterMap Metric.size? = [])
    (k : Nat) : op.sizeAfter k = k := by
  cases op with
  | push k p => cases p <;> simp_all [signals, Signal.metric?, Metric.size?, sizeAfter]
  | take key => simp_all [signals, Signal.metric?, Metric.size?]
  | _ => rfl

end MapOp

/-! ## Operations observed one after another -/

namespace Lru

variable {κ ν : Type} [BEq κ] [Hashable κ] (obs : Observers)

/-- Operations done one after another from `m` to `m'`, each as documented, and the events the
observers saw of them: the events of each operation read off the map it leaves. -/
inductive Observed : Lru (SomeIndex κ) κ ν → List (MapOp κ ν) → Lru (SomeIndex κ) κ ν →
    List (Event κ ν) → Prop
  | nil (m : Lru (SomeIndex κ) κ ν) : Observed m [] m []
  | cons {m m1 m2 : Lru (SomeIndex κ) κ ν} {op : MapOp κ ν} {ops : List (MapOp κ ν)}
      {evs : List (Event κ ν)} : m.Performs op m1 → Observed m1 ops m2 evs →
      Observed m (op :: ops) m2 (op.events obs m1.size m1.generation ++ evs)

variable {obs} {m m' m'' : Lru (SomeIndex κ) κ ν} {ops ops' : List (MapOp κ ν)}
  {evs evs' : List (Event κ ν)}

/-- What the observers see of operations done as documented: the events of each, read off the
size and generation of the map it leaves. -/
theorem Passes.observed (h : m.Passes ops m') :
    Observed obs m ops m' (MapOp.eventsFrom obs m.size m.generation ops) := by
  induction h with
  | nil => exact .nil _
  | cons hop _ ih =>
    rw [MapOp.eventsFrom, ← hop.size_eq, ← hop.generation_eq]
    exact .cons hop ih

namespace Observed

theorem append (h : Observed obs m ops m' evs) (h' : Observed obs m' ops' m'' evs') :
    Observed obs m (ops ++ ops') m'' (evs ++ evs') := by
  induction h with
  | nil => exact h'
  | cons hop _ ih => simpa only [List.cons_append, List.append_assoc] using .cons hop (ih h')

theorem events_eq_nil (h : Observed obs m [] m' evs) : evs = [] := by
  cases h
  rfl

/-- A counter record that each operation makes once when it has property `p`, whatever its
size and generation, is recorded as many times as there are such operations. -/
theorem count_metric (h : Observed obs m ops m' evs) (μ : Metric) (p : MapOp κ ν → Bool)
    (hp : ∀ n g op, ((op.signals n g).filterMap Signal.metric?).count μ = if p op then 1 else 0) :
    (evs.filterMap Event.metric?).count μ = if obs.recording then ops.countP p else 0 := by
  induction h with
  | nil => split <;> rfl
  | @cons m m1 m2 op ops evs hop _ ih =>
    rw [List.filterMap_append, List.count_append, ih, MapOp.filterMap_metric_events,
      List.countP_cons]
    split
    · rw [hp, Nat.add_comm]
    · rfl

/-- The eviction observer is handed the entries the operations evicted, in order. -/
theorem filterMap_evicted (h : Observed obs m ops m' evs) :
    evs.filterMap Event.evicted? = if obs.onEvict then ops.filterMap MapOp.evicted? else [] := by
  induction h with
  | nil => split <;> rfl
  | @cons m m1 m2 op ops evs hop _ ih =>
    rw [List.filterMap_append, ih, MapOp.filterMap_evicted_events, List.filterMap_cons]
    split
    · cases op.evicted? <;> rfl
    · rfl

/-- Operations that record no size leave the number of entries. -/
theorem size_eq_of_sizes_nil (h : Observed obs m ops m' evs) (hrec : obs.recording = true)
    (hnone : (evs.filterMap Event.metric?).filterMap Metric.size? = []) : m'.size = m.size := by
  induction h with
  | nil => rfl
  | @cons m m1 m2 op ops evs hop _ ih =>
    rw [List.filterMap_append, MapOp.filterMap_metric_events, if_pos hrec, List.filterMap_append,
      List.append_eq_nil_iff] at hnone
    rw [ih hnone.2, hop.size_eq, MapOp.sizeAfter_of_sizes_nil _ _ _ hnone.1]

/-- The last size the counter observer records is the number of entries the operations
leave. -/
theorem last_size (h : Observed obs m ops m' evs) (hrec : obs.recording = true) {x : Nat}
    (hx : ((evs.filterMap Event.metric?).filterMap Metric.size?).getLast? = some x) :
    x = m'.size := by
  induction h generalizing x with
  | nil => cases hx
  | @cons m m1 m2 op ops evs hop hrest ih =>
    rw [List.filterMap_append, MapOp.filterMap_metric_events, if_pos hrec, List.filterMap_append,
      List.getLast?_append] at hx
    cases hlast : ((evs.filterMap Event.metric?).filterMap Metric.size?).getLast? with
    | some y =>
      rw [hlast, Option.some_or] at hx
      obtain rfl := Option.some.inj hx
      exact ih hlast
    | none =>
      -- nothing later records a size, so the number of entries stays the one recorded here
      rw [hlast, Option.none_or] at hx
      rw [hrest.size_eq_of_sizes_nil hrec (List.getLast?_eq_none_iff.mp hlast)]
      exact MapOp.eq_of_mem_sizes _ _ op (List.mem_of_getLast? hx)

end Observed

end Lru

/-! ## Over a run of a script -/

namespace Session

variable {κ : Type} [BEq κ] [Hashable κ] [ToString κ] {s t : Session κ}

/-- A step that only reads the map performs no operation. -/
theorem opsOf_of_reads (s : Session κ) {st : MapStep κ} (hst : st.mutates = false) :
    s.opsOf st = [] := by
  cases st <;> first | rfl | cases hst

/-- What the observers see of a step from a good session: the events of its operations, each
read off the map it leaves. -/
theorem Good.step_observed (hs : s.Good) {listKeys : Bool} {st : MapStep κ} {rep : StepReport κ}
    (h : s.step listKeys st = .ok (rep, t)) :
    Lru.Observed s.setup.observers s.map (s.opsOf st) t.map rep.events := by
  obtain ⟨hpass, hev, -, -⟩ := hs.step_does h
  rw [hev]
  exact Lru.Passes.observed hpass

/-- Over a run from a good session the observers see the operations of its steps, one after
another. -/
theorem Runs.observed {vs : List (Visit κ)} (h : Runs s vs t) (hs : s.Good) :
    Lru.Observed s.setup.observers s.map (vs.flatMap Visit.ops) t.map
      (vs.flatMap fun v => v.report.events) := by
  induction h with
  | nil => exact .nil _
  | cons listKeys hstep _ ih =>
    have hrest := ih (hs.step hstep).1
    rw [(hs.step_does hstep).2.2.1] at hrest
    rw [List.flatMap_cons, List.flatMap_cons]
    exact (hs.step_observed hstep).append hrest

omit [ToString κ] in
/-- A read that misses with the reaction armed leaves the session as the same read with no
reaction armed, followed by the push of the armed entry. -/
theorem exec_getValue_armed {u : Session κ} {k k' : κ} {v' : String}
    (hk : u.map.find? k = none) (hrec : u.setup.observers.recording = true)
    (harm : u.missPush = some (k', v')) :
    (exec (getValue k) u).2 =
      (exec (pushEntry k' v') (exec (getValue k) { u with missPush := none }).2).2 := by
  have h : u.map.get k = .ok (none, u.map, [.miss]) := by
    simp only [Lru.find?] at hk
    simp [Lru.get, hk]
  -- the read misses whether or not the reaction is armed
  have hrun : exec (onMap fun m => m.get k) u =
      (.ok none, (exec (observe [.miss]) { u with map := u.map }).2) := exec_onMap_ok u h
  have hrun' : exec (onMap fun m => m.get k) { u with missPush := none } =
      (.ok none, (exec (observe [.miss]) { u with missPush := none, map := u.map }).2) :=
    exec_onMap_ok { u with missPush := none } h
  simp [getValue, hrun, hrun', reactToMiss, hrec, harm]

/-- Over a run from a good session, the observers see exactly the evictions, replacements, reads
and final size that the run's operations produce, step by step and over the whole run. -/
theorem observers_follow_outcomes {vs : List (Visit κ)} (hs : s.Good) (h : Runs s vs t) :
    (∀ v ∈ vs, Lru.Observed s.setup.observers v.before.map v.ops v.after.map v.report.events ∧
      (v.step.mutates = false → v.report.events = [])) ∧
    Lru.Observed s.setup.observers s.map (vs.flatMap Visit.ops) t.map
      (vs.flatMap fun v => v.report.events) ∧
    ((vs.flatMap fun v => v.report.events).filterMap Event.metric?).count .evict =
      (if s.setup.observers.recording then (vs.flatMap Visit.ops).countP MapOp.evicts else 0) ∧
    (vs.flatMap fun v => v.report.events).filterMap Event.evicted? =
      (if s.setup.observers.onEvict then (vs.flatMap Visit.ops).filterMap MapOp.evicted?
       else []) ∧
    ((vs.flatMap fun v => v.report.events).filterMap Event.metric?).count .replace =
      (if s.setup.observers.recording then (vs.flatMap Visit.ops).countP MapOp.replaces else 0) ∧
    ((vs.flatMap fun v => v.report.events).filterMap Event.metric?).count .hit +
        ((vs.flatMap fun v => v.report.events).filterMap Event.metric?).count .miss =
      (if s.setup.observers.recording then (vs.flatMap Visit.ops).countP MapOp.reads else 0) ∧
    (s.setup.observers.recording = true → ∀ x,
      (((vs.flatMap fun v => v.report.events).filterMap Event.metric?).filterMap
        Metric.size?).getLast? = some x → x = t.map.size) ∧
    (∀ (u : Session κ) (k k' : κ) (v' : String), u.map.find? k = none →
      u.setup.observers.recording = true → u.missPush = some (k', v') →
      (exec (perform (.get k)) u).2 =
        (exec (perform (.push k' v')) (exec (perform (.get k)) { u with missPush := none }).2).2) := by
  have hobs := h.observed hs
  refine ⟨fun v hv => ⟨?_, fun hst => ?_⟩, hobs, hobs.count_metric .evict _ MapOp.count_evict,
    hobs.filterMap_evicted, hobs.count_metric .replace _ MapOp.count_replace, ?_,
    fun hrec _ hx => hobs.last_size hrec hx, fun u k k' v' hk hrec harm => ?_⟩
  · obtain ⟨hgood, hsetup, listKeys, hstep⟩ := h.visit hs hv
    rw [← hsetup]
    exact hgood.step_observed hstep
  · -- a step that only reads the map performs no operation, and is seen doing none
    obtain ⟨hgood, -, listKeys, hstep⟩ := h.visit hs hv
    have hseen := hgood.step_observed hstep
    rw [opsOf_of_reads _ hst] at hseen
    exact hseen.events_eq_nil
  · rw [hobs.count_metric .hit _ MapOp.count_hit, hobs.count_metric .miss _ MapOp.count_miss]
    split
    · exact MapOp.countP_hits_add_misses _
    · rfl
  · simp [perform, exec_getValue_armed hk hrec harm]

/-- The witness: an ordered map of capacity two over integer keys, with the counter observer,
the eviction observer and the debug log installed, through a replacement, an eviction, a miss
and a hit. -/
theorem observers_follow_outcomes_six_steps :
    ∃ (s : Session Int) (vs : List (Visit Int)) (t : Session Int),
      open? (.ordered (some compare)) 2
        ({ observers := ⟨true, true, true, false⟩, loader := none, naming := none,
           missPush := none } : SessionSetup Int) false = .ok s ∧
      s.Good ∧ Runs s vs t ∧
      vs.map Visit.step = [.push 1 "a", .push 2 "b", .push 1 "c", .push 3 "d", .get 2, .get 1] ∧
      ((vs.flatMap fun v => v.report.events).filterMap Event.metric?).count .evict =
        (if s.setup.observers.recording then (vs.flatMap Visit.ops).countP MapOp.evicts
         else 0) := by
  have hlaw := MapShape.lawful_ordered_compare
  have hok : ((open? (.ordered (some compare) : MapShape Int) 2
      ({ observers := ⟨true, true, true, false⟩, loader := none, naming := none,
         missPush := none } : SessionSetup Int) false).toOption.map fun s =>
      (s.run false [.push 1 "a", .push 2 "b", .push 1 "c", .push 3 "d", .get 2, .get 1]).isOk) =
      some true := by
    decide +kernel
  cases hopen : open? (.ordered (some compare) : MapShape Int) 2
      ({ observers := ⟨true, true, true, false⟩, loader := none, naming := none,
         missPush := none } : SessionSetup Int) false with
  | error e =>
    rw [hopen] at hok
    cases hok
  | ok s =>
    rw [hopen] at hok
    cases hrun : s.run false [.push 1 "a", .push 2 "b", .push 1 "c", .push 3 "d", .get 2,
        .get 1] with
    | error e =>
      simp [hrun, Except.toOption, Except.isOk, Except.toBool] at hok
    | ok reports =>
      obtain ⟨vs, t, hvs, hsteps, -⟩ := Runs.of_run hrun
      have hs : s.Good := good_of_open? hlaw rfl hopen
      exact ⟨s, vs, t, rfl, hs, hvs, hsteps, (observers_follow_outcomes hs hvs).2.2.1⟩

end Session

end RecencyMap
