import RecencyMap.Proofs.Session.Frame
import RecencyMap.Proofs.Map.Changes

/-!
# What each step does to the map

The documentation of a map says, operation by operation, what changes and what the observers
are told: a push replaces, inserts or evicts, a read hits or misses, a touch or a removal
through a cursor acts on the cursor's entry, a drain removes entries one by one and then
reports, a load on a miss reads twice, calls the loader and pushes what it loaded.

`Session.opsOf s st` names the operations (`MapOp`) the step `st` performs from the session
`s`, read off `s` alone: the model's pairs decide a push's outcome and a read's hit, the cursor
under a name decides what a touch or a removal acts on. `Does s ops x` says that `x`, run from
`s`, performs `ops` one after another, each as documented (`Lru.Passes`), and appends exactly
their events to the observers' record.

The main result, `Good.does_perform`: every step run from a good session does `s.opsOf st`.
Steps that do not change the map do nothing (`keeps_mapSide_perform`); the others are taken
one by one.
-/

namespace RecencyMap

namespace Session

variable {κ : Type} [BEq κ] [Hashable κ]

/-! ## The operations of a step -/

section Ops

variable (s : Session κ)

/-- The key of the entry under the cursor named `c`, when the name holds a cursor at a live
slot. -/
def heldKey (c : String) : Option κ :=
  (s.cursors.lookup c).bind fun cur => (s.map.arena.key? cur.slot).toOption

/-- Whether the model finds `k` among the pairs of the session's map. -/
def finds (k : κ) : Bool := (Naive.find? s.map.index.eqv s.map.toList k).isSome

/-- What a push of `k` displaces, by the model. -/
def pushOutcome (k : κ) (v : String) : Pushed κ String :=
  (Naive.push s.map.index.eqv s.map.capacity s.map.toList k v).1

/-- The operations of a load on a miss: a read that hits; or a read that misses and, with a
loader, a second read that misses, the loader's call and, unless the loader panics or fails,
the push of what it loaded. -/
def loadOps [ToString κ] (k : κ) : List (MapOp κ String) :=
  if s.finds k then [.get k true]
  else .get k false :: match s.setup.loader with
    | none => []
    | some rule => [.get k false, .load k] ++
        if rule.panicking.contains k || rule.failing.contains k then []
        else [.push k (s.pushOutcome k ("L" ++ toString k))]

/-- The operations a step performs from `s`. Steps that only read the map, and steps whose
cursor holds no live entry, perform none. -/
def opsOf [ToString κ] : MapStep κ → List (MapOp κ String)
  | .push k v | .lockedPush k v => [.push k (s.pushOutcome k v)]
  | .get k | .lockedGet k => [.get k (s.finds k)]
  | .extend pairs => Naive.extendOps s.map.index.eqv s.map.capacity s.map.toList pairs
  | .drain limit => Naive.drainOps s.map.toList limit
  | .cTouch c => (s.heldKey c).toList.map .touch
  | .cTake c | .cTakeNext c _ | .cTakePrev c _ | .cRemoveNext c _ | .cRemovePrev c _ =>
    (s.heldKey c).toList.map .take
  | .lockedRemove k =>
    (Naive.find? s.map.index.eqv s.map.toList k).toList.map fun p => .take p.1
  | .getOrLoad k => s.loadOps k
  | _ => []

end Ops

/-! ## Doing operations -/

section Does

variable {α β : Type}

/-- Run from `s`, `x` performs the map operations `ops` one after another, each as documented,
appends exactly their events to the observers' record, and keeps the setup and the armed
reaction. -/
structure Does (s : Session κ) (ops : List (MapOp κ String)) (x : SessionM κ α) : Prop where
  passes : s.map.Passes ops (exec x s).2.map
  events : (exec x s).2.events =
    s.events ++ (MapOp.eventsFrom s.setup.observers s.map.size s.map.generation ops).toArray
  setup_eq : (exec x s).2.setup = s.setup
  missPush_eq : (exec x s).2.missPush = s.missPush

variable {s : Session κ}

/-- A run that leaves the map side of the session does nothing. -/
theorem Does.of_mapSide {x : SessionM κ α} (h : mapSide (exec x s).2 = mapSide s) :
    Does s [] x := by
  simp only [mapSide, Prod.mk.injEq] at h
  obtain ⟨hsetup, hmap, hmiss, hevents⟩ := h
  refine ⟨?_, ?_, hsetup, hmiss⟩
  · rw [hmap]
    exact .nil _
  · rw [hevents]
    simp [MapOp.eventsFrom]

theorem Does.of_keeps {x : SessionM κ α} (h : Keeps mapSide x) : Does s [] x :=
  Does.of_mapSide (h s)

/-- A map operation that performs `ops` and reports their signals does `ops`, when none of
them is a call of the loader. -/
theorem Does.onMap {f : Lru (SomeIndex κ) κ String →
      Except ArenaFault (Traced (SomeIndex κ) κ String α)}
    {a : α} {m' : Lru (SomeIndex κ) κ String} {ops : List (MapOp κ String)}
    (h : f s.map = .ok (a, m', MapOp.signalsFrom s.map.size s.map.generation ops))
    (hp : s.map.Passes ops m') (hl : ∀ op ∈ ops, ∀ k, op ≠ .load k) :
    Does s ops (Session.onMap f) := by
  have hrun := exec_onMap_ok s h
  refine ⟨?_, ?_, ?_, ?_⟩ <;> rw [hrun]
  · exact hp
  · simp [MapOp.eventsFrom_eq_flatMap _ hl]
  · rfl
  · rfl

/-- A run whose map side is that of performing `op` and recording its signals does `op`. -/
theorem Does.of_observed {x : SessionM κ α} {m' : Lru (SomeIndex κ) κ String}
    {op : MapOp κ String}
    (hside : mapSide (exec x s).2 =
      mapSide (exec (observe (op.signals m'.size m'.generation)) { s with map := m' }).2)
    (hp : s.map.Performs op m') (hl : ∀ k, op ≠ .load k) : Does s [op] x := by
  simp only [mapSide, exec_observe, Prod.mk.injEq] at hside
  obtain ⟨hsetup, hmap, hmiss, hevents⟩ := hside
  refine ⟨by rw [hmap]; exact .single hp, ?_, hsetup, hmiss⟩
  rw [hevents, MapOp.eventsFrom_eq_flatMap _ (by simpa using hl), MapOp.signalsFrom,
    MapOp.signalsFrom, List.append_nil, ← hp.size_eq, ← hp.generation_eq]

theorem Does.onMap_single {f : Lru (SomeIndex κ) κ String →
      Except ArenaFault (Traced (SomeIndex κ) κ String α)}
    {a : α} {m' : Lru (SomeIndex κ) κ String} {op : MapOp κ String}
    (h : f s.map = .ok (a, m', op.signals m'.size m'.generation)) (hp : s.map.Performs op m')
    (hl : ∀ k, op ≠ .load k) : Does s [op] (Session.onMap f) :=
  Does.of_observed (by rw [exec_onMap_ok s h]) hp hl

theorem Does.map {x : SessionM κ α} {ops : List (MapOp κ String)} (h : Does s ops x)
    (f : α → β) : Does s ops (f <$> x) := by
  refine ⟨?_, ?_, ?_, ?_⟩ <;> simp only [exec_map]
  exacts [h.passes, h.events, h.setup_eq, h.missPush_eq]

theorem Does.discard {x : SessionM κ α} {ops : List (MapOp κ String)} (h : Does s ops x) :
    Does s ops (discard x) := by
  refine ⟨?_, ?_, ?_, ?_⟩ <;> simp only [exec_discard]
  exacts [h.passes, h.events, h.setup_eq, h.missPush_eq]

/-- Doing `ops` and then, from where it left off, `ops'`, does both. -/
theorem Does.bind_exec {x : SessionM κ α} {f : α → SessionM κ β} {a : α} {t : Session κ}
    {ops ops' : List (MapOp κ String)} (hx : exec x s = (.ok a, t)) (hdx : Does s ops x)
    (hf : Does t ops' (f a)) : Does s (ops ++ ops') (x >>= f) := by
  have ht : (exec x s).2 = t := by rw [hx]
  have hpass : s.map.Passes ops t.map := ht ▸ hdx.passes
  have hev : t.events = s.events ++
      (MapOp.eventsFrom s.setup.observers s.map.size s.map.generation ops).toArray :=
    ht ▸ hdx.events
  have hset : t.setup = s.setup := ht ▸ hdx.setup_eq
  have hrun : exec (x >>= f) s = exec (f a) t := by simp only [exec_bind, hx]
  refine ⟨?_, ?_, ?_, ?_⟩ <;> rw [hrun]
  · exact hpass.append hf.passes
  · rw [hf.events, hev, hset, hpass.eventsFrom_append, ← List.append_toArray, Array.append_assoc]
  · rw [hf.setup_eq, hset]
  · rw [hf.missPush_eq, ← ht, hdx.missPush_eq]

/-- Doing `ops` and then only reading the map does `ops`. -/
theorem Does.bind_keeps {x : SessionM κ α} {f : α → SessionM κ β}
    {ops : List (MapOp κ String)} (hx : Does s ops x) (hf : ∀ a, Keeps mapSide (f a)) :
    Does s ops (x >>= f) := by
  have hside : mapSide (exec (x >>= f) s).2 = mapSide (exec x s).2 := by
    rw [exec_bind]
    cases h : (exec x s).1 with
    | ok a => exact hf a _
    | error e => rfl
  simp only [mapSide, Prod.mk.injEq] at hside
  obtain ⟨hsetup, hmap, hmiss, hevents⟩ := hside
  exact ⟨hmap ▸ hx.passes, hevents ▸ hx.events, hsetup ▸ hx.setup_eq, hmiss ▸ hx.missPush_eq⟩

theorem Does.get_bind {f : Session κ → SessionM κ α} {ops : List (MapOp κ String)}
    (h : Does s ops (f s)) : Does s ops (get >>= f) := by
  have hrun : exec (get >>= f) s = exec (f s) s := by simp only [exec_bind, exec_get]
  exact ⟨hrun ▸ h.passes, hrun ▸ h.events, hrun ▸ h.setup_eq, hrun ▸ h.missPush_eq⟩

end Does

/-! ## Each step -/

section Steps

variable [ToString κ] {s : Session κ}

omit [ToString κ] in
/-- The model's read answers exactly when the model finds the key. -/
theorem finds_eq_get (s : Session κ) (k : κ) :
    s.finds k = (Naive.get s.map.index.eqv s.map.toList k).1.isSome := by
  unfold finds Naive.get
  split <;> simp_all

omit [ToString κ] in
theorem Good.does_pushEntry (hs : s.Good) (k : κ) (v : String) :
    Does s [.push k (s.pushOutcome k v)] (pushEntry k v) := by
  obtain ⟨m', hpush, hperf, -⟩ := hs.consistent.push_performs hs.capacity_pos k v
  exact Does.onMap_single hpush hperf fun _ h => by cases h

omit [ToString κ] in
theorem Good.does_getValue (hs : s.Good) (k : κ) : Does s [.get k (s.finds k)] (getValue k) := by
  obtain ⟨m', hget, hperf, -⟩ := hs.consistent.get_performs k
  rw [finds_eq_get]
  exact Does.of_observed (by rw [hs.exec_getValue hget]) hperf fun _ h => by cases h

/-! ### Cursors -/

omit [ToString κ] in
/-- What the name `c` holds in a good session: nothing, a cursor at a dead slot, or a cursor at
an entry, whose key is then the held key. -/
theorem Good.cursor_cases (hs : s.Good) (c : String) :
    (s.cursors.lookup c = none ∧ s.heldKey c = none) ∨
    (∃ cur, s.cursors.lookup c = some cur ∧ s.map.arena.live cur.slot = false ∧
      s.heldKey c = none) ∨
    (∃ cur, ∃ e ∈ s.map.arena.view.entries, s.cursors.lookup c = some cur ∧
      e.slot = cur.slot ∧ s.heldKey c = some e.key) := by
  cases hl : s.cursors.lookup c with
  | none => exact Or.inl ⟨rfl, by simp [heldKey, hl]⟩
  | some cur =>
    rcases hs.consistent.live_cases cur.slot with ⟨e, he, hslot⟩ | hdead
    · obtain ⟨order, hshape⟩ := hs.consistent.shape
      refine Or.inr (Or.inr ⟨cur, e, he, rfl, hslot, ?_⟩)
      simp [heldKey, hl, ← hslot, hshape.key?_live he, Except.toOption]
    · refine Or.inr (Or.inl ⟨cur, rfl, hdead, ?_⟩)
      simp [Arena.live] at hdead
      simp [heldKey, hl, Arena.key?, Arena.live?, hdead, Functor.map, Except.map,
        Except.toOption]

omit [ToString κ] in
theorem touch_dead {m : Lru (SomeIndex κ) κ String} {cur : Cursor}
    (hdead : m.arena.live cur.slot = false) :
    cur.touch m = .error (.slot (.deadSlot .moveToHead cur.slot)) := by
  simp [Arena.live] at hdead
  simp [Cursor.touch, Cursor.onSlot, Arena.moveToHead, Arena.live?, hdead, bind, Except.bind,
    Except.mapError]

omit [ToString κ] in
theorem take_dead {m : Lru (SomeIndex κ) κ String} {cur : Cursor}
    (hdead : m.arena.live cur.slot = false) (towardsTail : Bool) :
    cur.take m towardsTail = .error (.slot (.deadSlot .remove cur.slot)) := by
  simp [Arena.live] at hdead
  simp [Cursor.take, Lru.take, Cursor.onSlot, Arena.remove, Arena.live?, hdead, bind,
    Except.bind, Except.mapError]

theorem Good.does_cTouch (hs : s.Good) (c : String) :
    Does s (s.opsOf (.cTouch c)) (perform (.cTouch c)) := by
  rcases hs.cursor_cases c with ⟨hl, hk⟩ | ⟨cur, hl, hdead, hk⟩ | ⟨cur, e, he, hl, hslot, hk⟩
  · simp only [opsOf, hk]
    exact Does.of_mapSide (by simp [perform, hl, Cursor.held?, Except.mapError])
  · simp only [opsOf, hk]
    exact Does.of_mapSide (by simp [perform, hl, Cursor.held?, touch_dead hdead, Except.mapError])
  · obtain ⟨m', htouch, hperf, -⟩ := hs.consistent.touch_performs he cur hslot.symm
    simp only [opsOf, hk]
    refine Does.of_observed ?_ hperf fun _ h => by cases h
    simp [perform, hl, Cursor.held?, htouch, Except.mapError, mapSide, MapOp.signals]

omit [ToString κ] in
/-- Taking under the cursor named `c` removes the entry it holds, when it holds one at a live
slot, and does nothing otherwise. -/
theorem Good.does_takeAt (hs : s.Good) (c : String) (heir : Option String) (towardsTail : Bool) :
    Does s ((s.heldKey c).toList.map .take) (takeAt c heir towardsTail) := by
  rcases hs.cursor_cases c with ⟨hl, hk⟩ | ⟨cur, hl, hdead, hk⟩ | ⟨cur, e, he, hl, hslot, hk⟩
  · rw [hk]
    exact Does.of_mapSide (by simp [takeAt, hl, Cursor.held?, Except.mapError])
  · rw [hk]
    exact Does.of_mapSide (by simp [takeAt, hl, Cursor.held?, take_dead hdead, Except.mapError])
  · obtain ⟨m', htake, hperf, -⟩ :=
      hs.consistent.cursor_take_performs he cur hslot.symm towardsTail
    rw [hk]
    refine Does.of_observed ?_ hperf fun _ h => by cases h
    cases heir <;> simp [takeAt, hl, Cursor.held?, htake, Except.mapError, mapSide]

theorem Good.does_lockedRemove (hs : s.Good) (k : κ) :
    Does s (s.opsOf (.lockedRemove k)) (perform (.lockedRemove k)) := by
  simp only [opsOf, Lru.toList_eq]
  rcases hs.consistent.lookup k with ⟨e, he, -, hfind, hn, -⟩ | ⟨hfind, hn, -⟩
  · obtain ⟨m', htake, hperf, -⟩ :=
      hs.consistent.cursor_take_performs he (s.map.cursorAt e.slot) rfl true
    rw [hn]
    refine Does.of_observed ?_ hperf fun _ h => by cases h
    simp [perform, Lru.entry?, hfind, htake, Except.mapError, mapSide, Recency.Entry.pair]
  · rw [hn]
    exact Does.of_mapSide (by simp [perform, Lru.entry?, hfind])

theorem Good.does_extend (hs : s.Good) (pairs : List (κ × String)) :
    Does s (s.opsOf (.extend pairs)) (perform (.extend pairs)) := by
  obtain ⟨m', hext, hpass, -⟩ := hs.consistent.extend_passes hs.capacity_pos pairs
  refine (Does.onMap hext hpass fun op hop k => ?_).bind_keeps fun _ => Keeps.pure _
  obtain ⟨k', p, rfl⟩ := Naive.extendOps_push _ _ _ _ op hop
  exact fun h => by cases h

theorem Good.does_drain (hs : s.Good) (limit : Option Nat) :
    Does s (s.opsOf (.drain limit)) (perform (.drain limit)) := by
  obtain ⟨m', hdrain, hpass, -⟩ := hs.consistent.drain_passes limit
  refine (Does.onMap hdrain hpass fun op hop k => ?_).map _
  rcases Naive.drainOps_take _ _ op hop with ⟨k', rfl⟩ | ⟨c, rfl⟩ <;> exact fun h => by cases h

/-! ### Loading on a miss -/

omit [ToString κ] in
/-- A failed first computation fails the whole, having done what it did. -/
theorem Does.bind_error {α β : Type} {x : SessionM κ α} {f : α → SessionM κ β}
    {ops : List (MapOp κ String)} {e : String} (hx : Does s ops x)
    (herr : (exec x s).1 = .error e) : Does s ops (x >>= f) := by
  have hrun : exec (x >>= f) s = (.error e, (exec x s).2) := by simp only [exec_bind, herr]
  exact ⟨hrun ▸ hx.passes, hrun ▸ hx.events, hrun ▸ hx.setup_eq, hrun ▸ hx.missPush_eq⟩

/-- The loader is seen loading and changes nothing. -/
theorem Good.does_loadBy (hs : s.Good) (rule : LoaderRule κ) (k : κ) :
    Does s [.load k] (loadBy rule k) := by
  have hside : mapSide (exec (loadBy rule k) s).2 =
      mapSide { s with events := s.events.push (.load k) } := by
    simp only [loadBy, exec_bind, exec_note]
    split
    · simp
    · split <;> rfl
  simp only [mapSide, Prod.mk.injEq] at hside
  obtain ⟨hsetup, hmap, hmiss, hevents⟩ := hside
  have hload : s.map.Performs (.load k) s.map := hs.consistent.performs_self rfl rfl (by simp)
  refine ⟨by rw [hmap]; exact .single hload, ?_, hsetup, hmiss⟩
  rw [hevents]
  simp [MapOp.eventsFrom, MapOp.events]

omit [BEq κ] [Hashable κ] in
/-- The loader notes its call, then panics, fails or loads. -/
theorem exec_loadBy [BEq κ] [Hashable κ] (u : Session κ) (rule : LoaderRule κ) (k : κ) :
    exec (loadBy rule k) u =
      (if rule.panicking.contains k then .error "loader panicked"
        else if rule.failing.contains k then .ok (.error "loader failed")
        else .ok (.ok ("L" ++ toString k)), { u with events := u.events.push (.load k) }) := by
  simp only [loadBy, exec_bind, exec_note]
  split
  · simp [*]
  · split <;> simp [*]

/-- A load on a miss reads, and on a miss reads again, calls the loader and pushes what it
loaded; a hit, a missing loader, a failing loader and a panicking one each stop it early. -/
theorem Good.does_getOrLoad (hs : s.Good) (k : κ) :
    Does s (s.opsOf (.getOrLoad k)) (perform (.getOrLoad k)) := by
  refine Does.get_bind (Does.map ?_ _)
  unfold RecencyMap.getOrLoad
  simp only [opsOf, loadOps]
  rcases hs.consistent.lookup k with ⟨e, he, -, hfind, hn, -⟩ | ⟨hfind, hn, -⟩
  · -- a hit answers at once
    have hf : s.finds k = true := by simp [finds, Lru.toList_eq, hn]
    obtain ⟨v, t, hrun, -⟩ := hs.getValue_hit hfind
    have h1 := hs.does_getValue k
    rw [hf] at h1
    rw [if_pos hf]
    show Does s ([.get k true] ++ []) _
    exact Does.bind_exec hrun h1 (Does.of_mapSide rfl)
  · have hf : s.finds k = false := by simp [finds, Lru.toList_eq, hn]
    obtain ⟨t, hrun, ht, htmap⟩ := hs.getValue_miss hfind
    have h1 := hs.does_getValue k
    rw [hf] at h1
    rw [if_neg (by simp [hf])]
    cases hl : s.setup.loader with
    | none =>
      show Does s ([.get k false] ++ []) _
      exact Does.bind_exec hrun h1 (Does.of_mapSide rfl)
    | some rule =>
      -- the second read misses too, for nothing was stored in between
      have htf : t.finds k = false := by rw [finds, htmap]; exact hf
      obtain ⟨u, hrun', hu, humap⟩ := ht.getValue_miss (by rw [htmap]; exact hfind)
      have h2 := ht.does_getValue k
      rw [htf] at h2
      have h3 := hu.does_loadBy rule k
      have hload := exec_loadBy u rule k
      dsimp only
      by_cases hp : rule.panicking.contains k = true
      · rw [if_pos (by simp [hp])]
        show Does s ([.get k false] ++ ([.get k false] ++ [.load k])) _
        have hx : (exec (loadBy rule k) u).1 = .error "loader panicked" := by
          rw [hload, if_pos hp]
        exact Does.bind_exec hrun h1 (Does.bind_exec hrun' h2 (Does.bind_error h3 hx))
      · by_cases hfl : rule.failing.contains k = true
        · rw [if_pos (by simp [hfl])]
          have hx : exec (loadBy rule k) u =
              (.ok (.error "loader failed"), { u with events := u.events.push (.load k) }) := by
            rw [hload, if_neg hp, if_pos hfl]
          show Does s ([.get k false] ++ ([.get k false] ++ ([.load k] ++ []))) _
          exact Does.bind_exec hrun h1 (Does.bind_exec hrun' h2 (Does.bind_exec hx h3
            (Does.of_mapSide rfl)))
        · rw [if_neg (by simp [hp, hfl])]
          -- the loaded value is pushed onto the map the misses left
          have hv : ({ u with events := u.events.push (.load k) } : Session κ).Good :=
            hu.of_eq rfl rfl
          have h4 := hv.does_pushEntry k ("L" ++ toString k)
          have hsame : ({ u with events := u.events.push (.load k) } : Session κ).pushOutcome k
              ("L" ++ toString k) = s.pushOutcome k ("L" ++ toString k) := by
            simp only [pushOutcome, humap, htmap]
          rw [hsame] at h4
          show Does s ([.get k false] ++ ([.get k false] ++ ([.load k] ++
            ([.push k (s.pushOutcome k ("L" ++ toString k))] ++ [])))) _
          have hx : exec (loadBy rule k) u =
              (.ok (.ok ("L" ++ toString k)), { u with events := u.events.push (.load k) }) := by
            rw [hload, if_neg hp, if_neg hfl]
          exact Does.bind_exec hrun h1 (Does.bind_exec hrun' h2 (Does.bind_exec hx h3
            (h4.discard.bind_keeps fun _ => Keeps.pure _)))

/-- Every step run from a good session performs the operations `opsOf` reads off the session,
each as documented, and appends exactly their events to the observers' record. -/
theorem Good.does_perform (hs : s.Good) (st : MapStep κ) : Does s (s.opsOf st) (perform st) := by
  cases hst : st.mutates with
  | false =>
    -- a step that does not change the map performs nothing
    have hops : s.opsOf st = [] := by cases st <;> first | rfl | cases hst
    rw [hops]
    exact Does.of_keeps (keeps_mapSide_perform st hst)
  | true =>
    cases st with
    | push k v | lockedPush k v => exact (hs.does_pushEntry k v).map _
    | get k | lockedGet k => exact (hs.does_getValue k).map _
    | extend pairs => exact hs.does_extend pairs
    | drain limit => exact hs.does_drain limit
    | cTouch c => exact hs.does_cTouch c
    | cTake c => exact (hs.does_takeAt c none true).bind_keeps fun ⟨⟨_, _⟩, _⟩ => Keeps.pure _
    | cTakeNext c heir =>
      exact (hs.does_takeAt c (some heir) true).bind_keeps fun ⟨⟨_, _⟩, _⟩ => Keeps.pure _
    | cTakePrev c heir =>
      exact (hs.does_takeAt c (some heir) false).bind_keeps fun ⟨⟨_, _⟩, _⟩ => Keeps.pure _
    | cRemoveNext c heir =>
      exact (hs.does_takeAt c (some heir) true).bind_keeps fun ⟨_, _⟩ => Keeps.pure _
    | cRemovePrev c heir =>
      exact (hs.does_takeAt c (some heir) false).bind_keeps fun ⟨_, _⟩ => Keeps.pure _
    | lockedRemove k => exact hs.does_lockedRemove k
    | getOrLoad k => exact hs.does_getOrLoad k
    | _ => cases hst

/-- One step of a script from a good session: it reports exactly the events of the operations
it performs, which lead from its map to the map it leaves, and it keeps the setup. -/
theorem Good.step_does (hs : s.Good) {listKeys : Bool} {st : MapStep κ} {rep : StepReport κ}
    {t : Session κ} (h : s.step listKeys st = .ok (rep, t)) :
    s.map.Passes (s.opsOf st) t.map ∧
      rep.events = MapOp.eventsFrom s.setup.observers s.map.size s.map.generation (s.opsOf st) ∧
      t.setup = s.setup ∧ t.missPush = s.missPush := by
  unfold Session.step at h
  cases hr : s.refusal? st with
  | some r => simp [hr] at h
  | none =>
    -- the body runs on the session with its events cleared, which is as good
    have hcleared : ({ s with events := #[] } : Session κ).Good := hs.of_eq rfl rfl
    have hdoes := hcleared.does_perform st
    have hrun : ((perform st).run { s with events := #[] }).run =
        exec (perform st) { s with events := #[] } := rfl
    simp only [hr, hrun] at h
    cases hp : exec (perform st) { s with events := #[] } with
    | mk r u =>
    obtain ⟨hpass, hev, hset, hmiss⟩ := hdoes
    rw [hp] at hpass hev hset hmiss
    simp only [hp, Except.ok.injEq, Prod.mk.injEq] at h
    obtain ⟨rfl, rfl⟩ := h
    refine ⟨hpass, ?_, hset, hmiss⟩
    show u.events.toList = _
    simp only at hev
    rw [hev]
    -- the operations read off the cleared session are those of `s`
    simp only [List.toList_toArray, Array.empty_append]
    rfl

end Steps

end Session

end RecencyMap
