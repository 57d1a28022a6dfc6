import RecencyMap.Proofs.Loading.Coalescing
import RecencyMap.Proofs.Session.Positions

/-!
# What a read-or-load leaves

A read-or-load of one key on a guarded map, by one caller at a time, ends in one of a few ways.
A key the first read finds is answered, the read brings it to the front, and the loader is not
called. An absent key with no loader is answered with the missing loader, and the map is kept.
Otherwise the key is read again inside its flight. When a reaction armed for the first miss has
stored the key in between, the second read finds it and the loader is never called; else the
loader is called exactly once. A panic of the loader propagates with its own text, and a failure
is answered with the loader's reason wrapped with the key; both keep the map. A loaded value is
answered, and the map is the one pushing it makes.

Among callers of read-or-load that run at once, the flight in the table always has a caller
leading it (`Loads.Led`), and a leader takes its flight out before it returns. So once every
caller is yet to start or has returned, no flight is in the table, and a later call starts a
fresh load.
-/

namespace RecencyMap

/-! ## Flights in the table -/

namespace Loads

variable {κ ν : Type} [BEq κ] [Hashable κ] {s : Loads κ ν}

/-- The flight in the table, if there is one, has a caller that leads it. -/
def Led (s : Loads κ ν) : Prop := ∀ f, s.inFlight = some f → ∃ t, (s.phase t).leads = some f

/-- Caller `t` moves to a phase that leads what its phase led. -/
theorem Led.moveTo (h : s.Led) {t : Nat} {p : Phase ν} (hleads : p.leads = (s.phase t).leads) :
    (s.moveTo t p).Led := by
  intro f hf
  obtain ⟨u, hu⟩ := h f hf
  refine ⟨u, ?_⟩
  by_cases hut : u = t
  · subst hut
    rw [moveTo_phase_self, hleads]
    exact hu
  · rw [moveTo_phase_of_ne s p hut]
    exact hu

/-- Every step keeps a leader on the flight in the table: a caller enters a table that holds
the flight by following it, and the leader takes the flight out before it returns. -/
theorem Led.next (h : s.Led) {e : LoadEvent κ ν} (he : s.Enabled e) : (s.next e).Led := by
  cases e with
  | read t =>
    have hp : s.phase t = .start := he
    simp only [Loads.next]
    split
    · exact h.moveTo (by rw [hp]; rfl)
    · exact h.moveTo (by rw [hp]; split <;> rfl)
    · exact h
  | enter t =>
    have hp : s.phase t = .joining := he
    cases hin : s.inFlight with
    | some f =>
      simp only [Loads.next, hin]
      exact h.moveTo (by rw [hp]; rfl)
    | none =>
      -- the caller registers a new flight and leads it
      simp only [Loads.next, hin]
      intro f hf
      refine ⟨t, ?_⟩
      simpa [Phase.leads] using hf
  | reread t =>
    obtain ⟨f, hp⟩ := he
    simp only [Loads.next, hp]
    split
    · rename_i hf _
      cases hf
      exact h.moveTo (by rw [hp]; rfl)
    · rename_i hf _
      cases hf
      exact h.moveTo (by rw [hp]; rfl)
    · exact h
  | call t | give t _ | fail t _ | panic t _ | exit t =>
    obtain ⟨f, hp⟩ := he
    simp only [Loads.next, hp]
    exact h.moveTo (by rw [hp]; rfl)
  | store t =>
    obtain ⟨f, v, hp⟩ := he
    simp only [Loads.next, hp]
    split
    · exact h.moveTo (by rw [hp]; rfl)
    · exact h
  | publish t =>
    obtain ⟨f, w, hp⟩ := he
    simp only [Loads.next, hp]
    exact h.moveTo (by rw [hp]; rfl)
  | leave t =>
    -- the leader takes its flight out of the table
    obtain ⟨f, w, hp⟩ := he
    simp only [Loads.next, hp]
    intro f hf
    cases hf
  | wake t =>
    obtain ⟨f, w, hp, hw⟩ := he
    simp only [Loads.next, hp, hw]
    exact h.moveTo (by rw [hp]; rfl)
  | giveUp t =>
    obtain ⟨⟨f, hp⟩, -⟩ := he
    simp only [Loads.next, hp]
    exact h.moveTo (by rw [hp]; rfl)
  | cancel t => exact h
  | other c =>
    simp only [Loads.next]
    split
    · exact h
    · exact h

/-- In every reachable state the flight in the table has a leader. -/
theorem Reachable.led (hs : s.Reachable) : s.Led := by
  induction hs with
  | start key hasLoader hc hcap =>
    intro f hf
    cases hf
  | step _ hstep ih =>
    obtain ⟨e, he, rfl⟩ := hstep
    exact ih.next he

/-- Once every caller is yet to start or has returned, no flight is in the table. -/
theorem Reachable.inFlight_eq_none (hs : s.Reachable)
    (hidle : ∀ t, s.phase t = .start ∨ ∃ a, s.phase t = .returned a) : s.inFlight = none := by
  cases hin : s.inFlight with
  | none => rfl
  | some f =>
    obtain ⟨t, ht⟩ := hs.led f hin
    rcases hidle t with hp | ⟨a, hp⟩ <;> rw [hp] at ht <;> cases ht

end Loads

/-! ## Loader calls in reports -/

/-- The key an event shows the loader called for, if it is such a call. -/
def Event.load? {κ ν : Type} : Event κ ν → Option κ
  | .load k => some k
  | _ => none

/-- The key an operation calls the loader for, if it is such a call. -/
def MapOp.load? {κ ν : Type} : MapOp κ ν → Option κ
  | .load k => some k
  | _ => none

namespace MapOp

variable {κ ν : Type}

@[simp] theorem load?_load (k : κ) : (MapOp.load k : MapOp κ ν).load? = some k := rfl

@[simp] theorem load?_get (k : κ) (found : Bool) : (MapOp.get k found : MapOp κ ν).load? = none :=
  rfl

@[simp] theorem load?_push (k : κ) (p : Pushed κ ν) : (MapOp.push k p).load? = none := rfl

/-- The observers see a call of the loader exactly where the operations make one. -/
theorem load?_eventsFrom (obs : Observers) (ops : List (MapOp κ ν)) (n g : Nat) :
    (eventsFrom obs n g ops).filterMap Event.load? = ops.filterMap MapOp.load? := by
  induction ops generalizing n g with
  | nil => rfl
  | cons op ops ih =>
    -- the events of a signal are never a call of the loader
    have hsig : ∀ sig : Signal κ ν, (obs.events sig).filterMap Event.load? = [] := by
      intro sig
      cases sig <;> simp only [Observers.events] <;> split_ifs <;> simp [Event.load?]
    have hop : (op.events obs (op.sizeAfter n) (g + op.changes.length)).filterMap Event.load? =
        (op.load?).toList := by
      cases op with
      | load k => rfl
      | _ => simp [events, List.filterMap_flatMap, hsig, MapOp.load?]
    rw [eventsFrom, List.filterMap_append, hop, ih]
    cases op <;> rfl

end MapOp

/-! ## Reads of a consistent map -/

namespace Lru

variable {κ ν : Type} [BEq κ] [Hashable κ] {m : Lru (SomeIndex κ) κ ν} {k : κ}

/-- On a consistent map, a key that reads as absent is found nowhere in the index. -/
theorem Consistent.find?_of_peek_none (hc : m.Consistent) (h : m.peek k = .ok none) :
    m.find? k = none := by
  rcases hc.lookup k with ⟨e, he, hk, -, -, -⟩ | ⟨hfind, -, -⟩
  · rw [hc.peek_found he hk] at h
    cases h
  · exact hfind

/-- On a consistent map, reading a key that holds a value answers with it and brings its pair to
the front. -/
theorem Consistent.get_of_peek (hc : m.Consistent) {v : ν} (h : m.peek k = .ok (some v)) :
    ∃ m' sigs, m.get k = .ok (some v, m', sigs) ∧
      m'.toList = (Naive.get m.index.eqv m.toList k).2 := by
  obtain ⟨m', sigs, es, hget, hf, hes⟩ := hc.get_naive k
  have hv : (Naive.get m.index.eqv m.toList k).1 = some v := by
    rw [Naive.get_fst]
    rw [hc.peek_naive] at h
    exact Except.ok.inj h
  rw [hv] at hget
  refine ⟨m', sigs, hget, ?_⟩
  rw [toList_eq, hf.entries_eq, hes]

end Lru

/-! ## Read-or-load in a session -/

namespace Session

variable {κ : Type} [BEq κ] [Hashable κ] [ToString κ] {s : Session κ} {k : κ}

omit [ToString κ] in
/-- A read of an absent key misses and changes nothing but what the observers record. -/
theorem Good.exec_getValue_none (hs : s.Good) (hk : s.map.find? k = none) :
    exec (getValue k) s = (.ok none, (exec (observe [.miss]) s).2) := by
  have h : s.map.get k = .ok (none, s.map, [.miss]) := by
    simp only [Lru.find?] at hk
    simp [Lru.get, hk]
  exact hs.exec_getValue h

omit [ToString κ] in
/-- Read-or-load of a key the read finds answers with what it reads, whatever the loader. -/
theorem Good.exec_getOrLoad_hit (hs : s.Good) {v : String} {m' : Lru (SomeIndex κ) κ String}
    {sigs : List (Signal κ String)} (hget : s.map.get k = .ok (some v, m', sigs))
    (loader : Option (κ → SessionM κ (Except String String))) :
    exec (getOrLoad getValue (fun k v => discard (pushEntry k v)) loader k) s =
      (.ok (.ok v), (exec (observe sigs) { s with map := m' }).2) := by
  simp [getOrLoad, hs.exec_getValue hget]

omit [ToString κ] in
/-- Read-or-load of an absent key with no loader answers that there is none after one miss. -/
theorem Good.exec_getOrLoad_noLoader (hs : s.Good) (hk : s.map.find? k = none) :
    exec (getOrLoad getValue (fun k v => discard (pushEntry k v)) none k) s =
      (.ok (.error .noLoader), (exec (observe [.miss]) s).2) := by
  simp [getOrLoad, hs.exec_getValue_none hk]

omit [ToString κ] in
/-- Read-or-load of an absent key with a loader misses twice and then runs the loader once; what
it does next follows what the loader gave: a fault propagates as it is, a failure is wrapped with
the key, and a value is pushed and answered. -/
theorem Good.exec_getOrLoad_load (hs : s.Good) (hk : s.map.find? k = none)
    (load : κ → SessionM κ (Except String String)) :
    (∀ p t, exec (load k) (exec (observe [.miss]) (exec (observe [.miss]) s).2).2 = (.error p, t) →
      exec (getOrLoad getValue (fun k v => discard (pushEntry k v)) (some load) k) s =
        (.error p, t)) ∧
    (∀ reason t, exec (load k) (exec (observe [.miss]) (exec (observe [.miss]) s).2).2 =
        (.ok (.error reason), t) →
      exec (getOrLoad getValue (fun k v => discard (pushEntry k v)) (some load) k) s =
        (.ok (.error (.failed k reason)), t)) ∧
    (∀ v t, exec (load k) (exec (observe [.miss]) (exec (observe [.miss]) s).2).2 =
        (.ok (.ok v), t) →
      exec (getOrLoad getValue (fun k v => discard (pushEntry k v)) (some load) k) s =
        ((exec (pushEntry k v) t).1.map fun _ => .ok v, (exec (pushEntry k v) t).2)) := by
  have h1 : (exec (observe [.miss]) s).2.Good := hs.of_eq rfl rfl
  have hrun : exec (getValue k) (exec (observe [.miss]) s).2 =
      (.ok none, (exec (observe [.miss]) (exec (observe [.miss]) s).2).2) :=
    h1.exec_getValue_none hk
  refine ⟨fun p t hl => ?_, fun reason t hl => ?_, fun v t hl => ?_⟩
  · simp only [getOrLoad, exec_bind, hs.exec_getValue_none hk, hrun, hl]
  · simp only [getOrLoad, exec_bind, hs.exec_getValue_none hk, hrun, hl, exec_pure]
  · -- a fault of the push is the answer, as it would be of any push
    simp only [getOrLoad, exec_bind, hs.exec_getValue_none hk, hrun, hl, exec_pure, exec_discard]
    cases (exec (pushEntry k v) t).1 <;> rfl

omit [ToString κ] in
/-- When the counter observer records and a push of an entry is armed for the first miss, the
first read of an absent `k` misses and sets off the push. -/
theorem exec_getValue_armed_push {u : Session κ} (hk : u.map.find? k = none)
    (hrec : u.setup.observers.recording = true) {k' : κ} {v' : String}
    (harm : u.missPush = some (k', v')) {p : Pushed κ String} {m1 : Lru (SomeIndex κ) κ String}
    {sigs : List (Signal κ String)} (hpush : u.map.push k' v' = .ok (p, m1, sigs)) :
    exec (getValue k) u = (.ok none, (exec (observe sigs)
      { (exec (observe [.miss]) u).2 with missPush := none, map := m1 }).2) := by
  have hget : u.map.get k = .ok (none, u.map, [.miss]) := by
    simp only [Lru.find?] at hk
    simp [Lru.get, hk]
  have hrun : exec (onMap fun m => m.get k) u = (.ok none, (exec (observe [.miss]) u).2) :=
    exec_onMap_ok u hget
  -- the miss is recorded before the reaction looks at the session
  have hsetup : (exec (observe [.miss]) u).2.setup = u.setup := rfl
  have hmiss : (exec (observe [.miss]) u).2.missPush = u.missPush := rfl
  have hmap : (exec (observe [.miss]) u).2.map = u.map := rfl
  generalize (exec (observe [.miss]) u).2 = w at hrun hsetup hmiss hmap ⊢
  have hpushed : exec (pushEntry k' v') { w with missPush := none } =
      (.ok p, (exec (observe sigs) { w with missPush := none, map := m1 }).2) :=
    exec_onMap_ok (f := fun m => m.push k' v') { w with missPush := none } (hmap ▸ hpush)
  have hrec' : w.setup.observers.recording = true := hsetup ▸ hrec
  have harm' : w.missPush = some (k', v') := hmiss ▸ harm
  simp only [getValue, exec_bind, hrun, Option.isNone_none, if_true, reactToMiss, exec_get,
    hrec', harm', exec_set, exec_discard, hpushed]
  rfl

omit [ToString κ] in
/-- When the counter observer records and a push of an entry under a key the index takes for `k`
is armed for the first miss, read-or-load of an absent `k` finds that entry on its second read:
it answers with the armed value and ends in the same session whatever the loader, which it never
calls. -/
theorem exec_getOrLoad_recheck {u : Session κ} (hc : u.map.Consistent)
    (hcap : 0 < u.map.capacity) (hk : u.map.find? k = none)
    (hrec : u.setup.observers.recording = true) {k' : κ} {v' : String}
    (harm : u.missPush = some (k', v')) (heqv : u.map.index.eqv k' k = true) :
    ∃ t, ∀ load : κ → SessionM κ (Except String String),
      exec (getOrLoad getValue (fun k v => discard (pushEntry k v)) (some load) k) u =
        (.ok (.ok v'), t) := by
  obtain ⟨m1, sigs, es, hpush, hf, -⟩ := hc.push_naive hcap k' v'
  obtain ⟨-, hpeek', -⟩ := hc.push_stores hcap hpush
  -- after the armed push the session is good again
  have h1 : (exec (observe sigs)
      { (exec (observe [.miss]) u).2 with missPush := none, map := m1 }).2.Good :=
    ⟨hf.consistent, hf.capacity_pos hcap, rfl⟩
  -- and the map holds the armed value under `k`
  have hfind : m1.find? k' = m1.find? k :=
    SomeIndex.find?_congr hf.consistent.describes.lawful (hf.eqv_eq ▸ heqv)
  have hpeek : m1.peek k = .ok (some v') := by
    rw [← hpeek']
    simp only [Lru.peek, hfind]
  obtain ⟨m2, sigs2, hget2, -⟩ := h1.consistent.get_of_peek hpeek
  refine ⟨(exec (observe sigs2) { (exec (observe sigs)
    { (exec (observe [.miss]) u).2 with missPush := none, map := m1 }).2 with map := m2 }).2,
    fun load => ?_⟩
  simp only [getOrLoad, exec_bind, exec_getValue_armed_push hk hrec harm hpush,
    h1.exec_getValue hget2, exec_pure]

/-- A read-or-load step runs read-or-load with the loader the session was set up with. -/
theorem exec_perform_getOrLoad (u : Session κ) (k : κ) :
    exec (perform (.getOrLoad k)) u =
      ((exec (getOrLoad getValue (fun k v => discard (pushEntry k v))
          (u.setup.loader.map loadBy) k) u).1.map Reply.loaded,
        (exec (getOrLoad getValue (fun k v => discard (pushEntry k v))
          (u.setup.loader.map loadBy) k) u).2) := by
  simp only [perform, exec_bind, exec_get, exec_map]

omit [ToString κ] in
/-- On a good session the model finds `k` exactly when `k` reads as holding a value. -/
theorem Good.finds_of_peek (hs : s.Good) {o : Option String} (h : s.map.peek k = .ok o) :
    s.finds k = o.isSome := by
  rw [hs.consistent.peek_naive] at h
  rw [finds, ← Except.ok.inj h, Option.isSome_map]

/-- Read-or-load of an absent key on a good session, with the loader a rule sets up: after two
misses the loader is called once; a panic and a failure keep the map, and a loaded value is
pushed. -/
theorem Good.exec_getOrLoad_loadBy (hs : s.Good) (hk : s.map.find? k = none)
    (rule : LoaderRule κ) :
    (rule.panicking.contains k = true → ∃ t,
      exec (getOrLoad getValue (fun k v => discard (pushEntry k v)) (some (loadBy rule)) k) s =
        (.error "loader panicked", t) ∧ t.map = s.map) ∧
    (rule.panicking.contains k = false → rule.failing.contains k = true → ∃ t,
      exec (getOrLoad getValue (fun k v => discard (pushEntry k v)) (some (loadBy rule)) k) s =
        (.ok (.error (.failed k "loader failed")), t) ∧ t.map = s.map) ∧
    (rule.panicking.contains k = false → rule.failing.contains k = false → ∃ t,
      exec (getOrLoad getValue (fun k v => discard (pushEntry k v)) (some (loadBy rule)) k) s =
        (.ok (.ok ("L" ++ toString k)), t) ∧
      ∃ p sigs, s.map.push k ("L" ++ toString k) = .ok (p, t.map, sigs)) := by
  obtain ⟨hpanic, hfail, hvalue⟩ := hs.exec_getOrLoad_load hk (loadBy rule)
  -- the loader runs on the session the two misses leave, whose map is the same
  have hcall := exec_loadBy (exec (observe [.miss]) (exec (observe [.miss]) s).2).2 rule k
  refine ⟨fun hp => ?_, fun hp hf => ?_, fun hp hf => ?_⟩
  · rw [if_pos hp] at hcall
    exact ⟨_, hpanic _ _ hcall, rfl⟩
  · rw [if_neg (by simp [hp]), if_pos hf] at hcall
    exact ⟨_, hfail _ _ hcall, rfl⟩
  · rw [if_neg (by simp [hp]), if_neg (by simp [hf])] at hcall
    obtain ⟨m', sigs, es, hpush, -, -⟩ := hs.consistent.push_naive hs.capacity_pos k
      ("L" ++ toString k)
    have hpushed := exec_onMap_ok (f := fun m => m.push k ("L" ++ toString k))
      { (exec (observe [.miss]) (exec (observe [.miss]) s).2).2 with
        events := (exec (observe [.miss]) (exec (observe [.miss]) s).2).2.events.push
          (.load k) } hpush
    rw [hvalue _ _ hcall]
    simp only [pushEntry, hpushed]
    exact ⟨_, Prod.ext (by simp [Except.map]) rfl, _, _, hpush⟩

/-- The loader calls a step on a good session reports are the loader calls among its
operations. -/
theorem Good.step_loads (hs : s.Good) {listKeys : Bool} {st : MapStep κ} {rep : StepReport κ}
    {u : Session κ} (hstep : s.step listKeys st = .ok (rep, u)) :
    rep.events.filterMap Event.load? = (s.opsOf st).filterMap MapOp.load? := by
  rw [(hs.step_does hstep).2.1]
  exact MapOp.load?_eventsFrom _ _ _ _

/-- A read-or-load step leaves what read-or-load with the configured loader leaves on the session
with its events cleared, and answers with its answer, or with its fault as a panic. -/
theorem step_getOrLoad {listKeys : Bool} {rep : StepReport κ} {u : Session κ}
    (hstep : s.step listKeys (.getOrLoad k) = .ok (rep, u))
    {r : Except String (Except (LoadError κ) String)} {t : Session κ}
    (hrun : exec (getOrLoad getValue (fun k v => discard (pushEntry k v))
      (s.setup.loader.map loadBy) k) { s with events := #[] } = (r, t)) :
    u = t ∧ (∀ a, r = .ok a → rep.reply = .loaded a) ∧
      (∀ p, r = .error p → rep.reply = .panicked p) := by
  obtain ⟨hu, hrep⟩ := step_eq_ok hstep
  simp only [exec_perform_getOrLoad] at hu hrep
  rw [hrun] at hu hrep
  refine ⟨hu, fun a ha => ?_, fun p hp => ?_⟩
  · subst ha
    simpa [Except.map] using hrep
  · subst hp
    simpa [Except.map] using hrep

section Reachable

variable {shape : MapShape κ} {capacity : Int} {setup : SessionSetup κ}

/-- In every reachable session read-or-load of any key runs: a present key answers its value and
calls no loader, and an absent one calls the loader at most once and keeps the map unless a
loaded value is pushed. A reaction armed on the first miss pre-empts the loader, and no flight is
left once every caller has returned. -/
theorem get_or_load_stores_or_keeps (hshape : shape.Lawful) (hmiss : setup.missPush = none)
    (hs : Reachable shape capacity setup s) (k : κ) (listKeys : Bool) :
    (∃ rep u, s.step listKeys (.getOrLoad k) = .ok (rep, u) ∧
      (∀ v, s.map.peek k = .ok (some v) →
        rep.reply = .loaded (.ok v) ∧ rep.events.filterMap Event.load? = [] ∧
        u.map.toList = (Naive.get s.map.index.eqv s.map.toList k).2) ∧
      (s.map.peek k = .ok none → s.setup.loader = none →
        rep.reply = .loaded (.error .noLoader) ∧ rep.events.filterMap Event.load? = [] ∧
        u.map = s.map) ∧
      (s.map.peek k = .ok none → ∀ rule, s.setup.loader = some rule →
        rep.events.filterMap Event.load? = [k] ∧
        (rule.panicking.contains k = true →
          rep.reply = .panicked "loader panicked" ∧ u.map = s.map) ∧
        (rule.panicking.contains k = false → rule.failing.contains k = true →
          rep.reply = .loaded (.error (.failed k "loader failed")) ∧ u.map = s.map) ∧
        (rule.panicking.contains k = false → rule.failing.contains k = false →
          rep.reply = .loaded (.ok ("L" ++ toString k)) ∧
          ∃ p sigs, s.map.push k ("L" ++ toString k) = .ok (p, u.map, sigs)))) ∧
    (∀ (u : Session κ) (k' : κ) (v' : String), u.map.Consistent → 0 < u.map.capacity →
      u.map.peek k = .ok none → u.setup.observers.recording = true →
      u.missPush = some (k', v') → u.map.index.eqv k' k = true →
      ∃ t, ∀ load : κ → SessionM κ (Except String String),
        exec (getOrLoad getValue (fun k v => discard (pushEntry k v)) (some load) k) u =
          (.ok (.ok v'), t)) ∧
    ∀ {ν : Type} (ls : Loads κ ν), ls.Reachable →
      (∀ t, ls.phase t = .start ∨ ∃ a, ls.phase t = .returned a) → ls.inFlight = none := by
  have hg := hs.good hshape hmiss
  have hg0 : ({ s with events := #[] } : Session κ).Good := hg.of_eq rfl rfl
  obtain ⟨rep, u, hstep⟩ :=
    step_ok_of_refusal (show s.refusal? (.getOrLoad k) = none from rfl) listKeys
  refine ⟨⟨rep, u, hstep, fun v hpeek => ?_, fun hpeek hnone => ?_, fun hpeek rule hrule => ?_⟩,
    fun u k' v' hc hcap hpeek hrec harm heqv =>
      exec_getOrLoad_recheck hc hcap (hc.find?_of_peek_none hpeek) hrec harm heqv,
    fun ls hls hidle => hls.inFlight_eq_none hidle⟩
  · -- a hit answers with the value read, which the read brings to the front
    obtain ⟨m', sigs, hget, hlist⟩ := hg.consistent.get_of_peek hpeek
    obtain ⟨hu, hans, -⟩ := step_getOrLoad hstep (hg0.exec_getOrLoad_hit hget _)
    refine ⟨hans _ rfl, ?_, by rw [hu]; exact hlist⟩
    rw [hg.step_loads hstep]
    simp [opsOf, loadOps, hg.finds_of_peek hpeek]
  · -- a miss with no loader answers that there is none
    have hrun := hg0.exec_getOrLoad_noLoader (hg.consistent.find?_of_peek_none hpeek)
    rw [← show s.setup.loader.map loadBy = none by rw [hnone]; rfl] at hrun
    obtain ⟨hu, hans, -⟩ := step_getOrLoad hstep hrun
    refine ⟨hans _ rfl, ?_, by rw [hu]; rfl⟩
    rw [hg.step_loads hstep]
    simp [opsOf, loadOps, hg.finds_of_peek hpeek, hnone]
  · -- a miss with a loader calls it once, after the second read misses too
    have hloader : s.setup.loader.map loadBy = some (loadBy rule) := by rw [hrule]; rfl
    obtain ⟨hpanic, hfail, hvalue⟩ :=
      hg0.exec_getOrLoad_loadBy (hg.consistent.find?_of_peek_none hpeek) rule
    refine ⟨?_, fun hp => ?_, fun hp hf => ?_, fun hp hf => ?_⟩
    · rw [hg.step_loads hstep]
      cases hp : rule.panicking.contains k <;> cases hf : rule.failing.contains k <;>
        simp [opsOf, loadOps, hg.finds_of_peek hpeek, hrule, hp, hf, List.filterMap_cons]
    · obtain ⟨t, hrun, hmap⟩ := hpanic hp
      obtain ⟨hu, -, hans⟩ := step_getOrLoad hstep (hloader ▸ hrun)
      exact ⟨hans _ rfl, hu ▸ hmap⟩
    · obtain ⟨t, hrun, hmap⟩ := hfail hp hf
      obtain ⟨hu, hans, -⟩ := step_getOrLoad hstep (hloader ▸ hrun)
      exact ⟨hans _ rfl, hu ▸ hmap⟩
    · obtain ⟨t, hrun, hpush⟩ := hvalue hp hf
      obtain ⟨hu, hans, -⟩ := step_getOrLoad hstep (hloader ▸ hrun)
      exact ⟨hans _ rfl, hu ▸ hpush⟩

/-- The witness: a just opened ordered map over integer keys whose loader fails for two and panics
for three, reading or loading one; a map with room whose recording observer is armed to push an
entry under one, read or loaded at one; and callers of read-or-load before any of them started. -/
theorem get_or_load_stores_or_keeps_opened :
    ∃ s : Session Int, (MapShape.ordered (some compare) : MapShape Int).Lawful ∧
      ({ observers := ⟨false, false, false, false⟩, loader := some ⟨[2], [3]⟩, naming := none,
         missPush := none } : SessionSetup Int).missPush = none ∧
      Reachable (.ordered (some compare)) 2
        ({ observers := ⟨false, false, false, false⟩, loader := some ⟨[2], [3]⟩, naming := none,
           missPush := none } : SessionSetup Int) s ∧
      (∃ rep u, s.step false (.getOrLoad 1) = .ok (rep, u) ∧
        (∀ v, s.map.peek 1 = .ok (some v) →
          rep.reply = .loaded (.ok v) ∧ rep.events.filterMap Event.load? = [] ∧
          u.map.toList = (Naive.get s.map.index.eqv s.map.toList 1).2) ∧
        (s.map.peek 1 = .ok none → s.setup.loader = none →
          rep.reply = .loaded (.error .noLoader) ∧ rep.events.filterMap Event.load? = [] ∧
          u.map = s.map) ∧
        (s.map.peek 1 = .ok none → ∀ rule, s.setup.loader = some rule →
          rep.events.filterMap Event.load? = [1] ∧
          (rule.panicking.contains 1 = true →
            rep.reply = .panicked "loader panicked" ∧ u.map = s.map) ∧
          (rule.panicking.contains 1 = false → rule.failing.contains 1 = true →
            rep.reply = .loaded (.error (.failed 1 "loader failed")) ∧ u.map = s.map) ∧
          (rule.panicking.contains 1 = false → rule.failing.contains 1 = false →
            rep.reply = .loaded (.ok ("L" ++ toString (1 : Int))) ∧
            ∃ p sigs, s.map.push 1 ("L" ++ toString (1 : Int)) = .ok (p, u.map, sigs)))) ∧
      (∃ u : Session Int, u.map.Consistent ∧ 0 < u.map.capacity ∧ u.map.peek 1 = .ok none ∧
        u.setup.observers.recording = true ∧ u.missPush = some (1, "h") ∧
        u.map.index.eqv 1 1 = true ∧
        ∃ t, ∀ load : Int → SessionM Int (Except String String),
          exec (getOrLoad getValue (fun k v => discard (pushEntry k v)) (some load) 1) u =
            (.ok (.ok "h"), t)) ∧
      ∃ ls : Loads Int String, ls.Reachable ∧
        (∀ t, ls.phase t = .start ∨ ∃ a, ls.phase t = .returned a) ∧ ls.inFlight = none := by
  have hlaw := MapShape.lawful_ordered_compare
  have hix : (SomeIndex.emptyOrdered compare : SomeIndex Int).Lawful := hlaw
  have hcreate : (Lru.create? 2 (SomeIndex.emptyOrdered compare) :
      Except BuildError (Lru (SomeIndex Int) Int String)) =
      .ok ⟨Arena.empty 2, .emptyOrdered compare⟩ := rfl
  have hc : (⟨Arena.empty 2, .emptyOrdered compare⟩ : Lru (SomeIndex Int) Int String).Consistent :=
    Lru.consistent_create hcreate (SomeIndex.describes_empty (Or.inr ⟨compare, rfl⟩) hix)
  cases h0 : open? (.ordered (some compare) : MapShape Int) 2
      ({ observers := ⟨false, false, false, false⟩, loader := some ⟨[2], [3]⟩, naming := none,
         missPush := none } : SessionSetup Int) false with
  | error e => cases h0
  | ok s0 =>
  have hs : Reachable (.ordered (some compare)) 2
      ({ observers := ⟨false, false, false, false⟩, loader := some ⟨[2], [3]⟩, naming := none,
         missPush := none } : SessionSetup Int) s0 := .opened false h0
  obtain ⟨hstep, hrecheck, hidle⟩ := get_or_load_stores_or_keeps hlaw rfl hs 1 false
  -- an armed push of one, on an empty map with room
  let u : Session Int :=
    { setup := { observers := ⟨true, false, false, false⟩, loader := none, naming := none,
                 missPush := some (1, "h") }
      map := ⟨Arena.empty 2, .emptyOrdered compare⟩, cursors := [], walks := [],
      missPush := some (1, "h"), counters := {}, events := #[] }
  have hpeek : u.map.peek 1 = .ok none := by decide +kernel
  have heqv : u.map.index.eqv 1 1 = true := by decide +kernel
  exact ⟨s0, hlaw, rfl, hs, hstep,
    ⟨u, hc, by decide, hpeek, rfl, rfl, heqv, hrecheck u 1 "h" hc (by decide) hpeek rfl rfl heqv⟩,
    ⟨_, .start 1 true hc (by decide), fun _ => .inl rfl,
      hidle _ (.start 1 true hc (by decide)) fun _ => .inl rfl⟩⟩

end Reachable

end Session

end RecencyMap
