import RecencyMap.Proofs.Map.Traversal
import RecencyMap.Proofs.Session.Runs

/-!
# Walking a map in a session

A session keeps walks by name. A walk made over the whole map, or from a cursor, and then
stepped from either end any number of times in any order, with no other step in between, hands
out the map's entries as a double-ended queue over them does (`yields`): each entry exactly
once, the front steps from the most recent entry on and the back steps from the least recent
one back, until the two ends meet; every later step finds nothing. No step of a walk changes
the map, so the recency order and the generation stay as they were.

The listing steps read the same order: the entries from most to least recent, cut after a
limit, are what as many steps from the front of a walk hand out, and the entries from least to
most recent what as many steps from the back hand out.
-/

namespace RecencyMap

namespace Session

variable {κ : Type} [BEq κ] [Hashable κ] [ToString κ]

/-- The step of the walk `it` from its front (`true`) or from its back. -/
def walkStep (it : String) (forward : Bool) : MapStep κ :=
  if forward then .itNext it else .itBack it

omit [ToString κ] in
/-- Storing a walk under a name, then reading that name, finds the walk. -/
theorem lookup_setWalk (u : Session κ) (it : String) (w : Walk) :
    (exec (setWalk it (some w)) u).2.walks.lookup it = some w := by
  simp

/-- Steps that no session refuses run. -/
theorem step_ok_of_refusal {s : Session κ} {st : MapStep κ} (h : s.refusal? st = none)
    (listKeys : Bool) : ∃ rep t, s.step listKeys st = .ok (rep, t) := by
  unfold Session.step
  rw [h]
  exact ⟨_, _, rfl⟩

/-! ## One step of a walk -/

section Step

variable {s t : Session κ} {it : String} {w : Walk} {seg : List (Recency.Entry κ String)}

omit [ToString κ] in
/-- A step of a walk with the stretch `seg` of a consistent map's entries left hands out what
the queue of `seg` hands out, stores the walk with the rest of the stretch, and keeps the map. -/
theorem exec_stepWalk_spans (hc : s.map.Consistent) (hl : s.walks.lookup it = some w)
    (hw : w.Spans s.map.arena.view.entries seg) (forward : Bool) :
    ∃ w', exec (perform.stepWalk it forward) s =
        (.ok (.foundEntry ((if forward then seg.head? else seg.getLast?).map
          Recency.Entry.pair)), (exec (setWalk it (some w')) s).2) ∧
      w'.Spans s.map.arena.view.entries (if forward then seg.tail else seg.dropLast) := by
  obtain ⟨order, h⟩ := hc.shape
  cases forward with
  | true =>
    obtain ⟨hread, hspans⟩ := hw.next h
    refine ⟨(w.next s.map.arena).1, ?_, hspans⟩
    simp only [perform.stepWalk, exec_bind, exec_get, hl, if_true]
    simp [hread, Except.mapError, Except.map]
  | false =>
    obtain ⟨hread, hspans⟩ := hw.nextBack h
    refine ⟨(w.nextBack s.map.arena).1, ?_, hspans⟩
    simp only [perform.stepWalk, exec_bind, exec_get, hl, Bool.false_eq_true, if_false]
    simp [hread, Except.mapError, Except.map]

/-- One step of a walk as a step of the session: it replies with what the queue of the walk's
stretch hands out, keeps the map, and leaves the walk with the rest of its stretch. -/
theorem step_walk_spans (hc : s.map.Consistent) (hl : s.walks.lookup it = some w)
    (hw : w.Spans s.map.arena.view.entries seg) (forward : Bool) {listKeys : Bool}
    {rep : StepReport κ} (h : s.step listKeys (walkStep it forward) = .ok (rep, t)) :
    rep.reply = .foundEntry ((if forward then seg.head? else seg.getLast?).map
        Recency.Entry.pair) ∧ t.map = s.map ∧
      ∃ w', t.walks.lookup it = some w' ∧
        w'.Spans s.map.arena.view.entries (if forward then seg.tail else seg.dropLast) := by
  -- the step runs its body from the session with its events cleared, which has the same walks
  have hc' : ({ s with events := #[] } : Session κ).map.Consistent := hc
  obtain ⟨w', hexec, hspans⟩ := exec_stepWalk_spans hc' hl hw forward
  have hperf : perform (walkStep it forward) = perform.stepWalk (κ := κ) it forward := by
    cases forward <;> rfl
  obtain ⟨ht, hrep⟩ := step_eq_ok h
  rw [hperf, hexec] at ht hrep
  refine ⟨hrep, by rw [ht]; rfl, w', by rw [ht]; exact lookup_setWalk _ it w', hspans⟩

end Step

/-! ## Runs of walk steps -/

/-- Over a run of steps of one walk, from a session whose map is consistent and where the walk
has the stretch `seg` left, the replies are what a double-ended queue over `seg` hands out,
and the map stays as it was. The induction is on the run, carrying the stretch left. -/
theorem Runs.walk_yields {u t : Session κ} {vs : List (Visit κ)} (h : Runs u vs t)
    (hc : u.map.Consistent) {it : String} {w : Walk} (hl : u.walks.lookup it = some w)
    {seg : List (Recency.Entry κ String)} (hw : w.Spans u.map.arena.view.entries seg)
    {ds : List Bool} (hds : vs.map Visit.step = ds.map (walkStep it)) :
    vs.map (fun v => v.report.reply) =
        (yields (seg.map Recency.Entry.pair) ds).map Reply.foundEntry ∧ t.map = u.map := by
  induction h generalizing w seg ds with
  | nil =>
    cases ds with
    | nil => exact ⟨rfl, rfl⟩
    | cons d ds => simp at hds
  | @cons s t' u st rep vs listKeys hstep _ ih =>
    cases ds with
    | nil => simp at hds
    | cons d ds =>
    simp only [List.map_cons, List.cons.injEq] at hds
    obtain ⟨rfl, hds⟩ := hds
    obtain ⟨hrep, hmap, w', hl', hw'⟩ := step_walk_spans hc hl hw d hstep
    rw [← hmap] at hw'
    obtain ⟨hreplies, hend⟩ := ih (hmap ▸ hc) hl' hw' hds
    refine ⟨?_, hend.trans hmap⟩
    rw [List.map_cons, hreplies, hrep]
    cases d <;> simp [yields, List.head?_map, List.getLast?_map, List.map_tail,
      ← List.map_dropLast]

/-- Every script of steps that no session refuses runs, from any session. -/
theorem runs_of_unrefused (steps : List (MapStep κ)) (h : ∀ st ∈ steps, ∀ u : Session κ,
    u.refusal? st = none) (s : Session κ) : ∃ vs t, Runs s vs t ∧ vs.map Visit.step = steps := by
  induction steps generalizing s with
  | nil => exact ⟨[], s, .nil s, rfl⟩
  | cons st steps ih =>
    obtain ⟨rep, u, hstep⟩ := step_ok_of_refusal (h st List.mem_cons_self s) false
    obtain ⟨vs, t, hrun, hvs⟩ := ih (fun st' hst' => h st' (List.mem_cons_of_mem _ hst')) u
    exact ⟨⟨s, st, rep, u⟩ :: vs, t, .cons false hstep hrun, by simp [hvs]⟩

/-! ## Walks over the whole map and from a cursor -/

section Walks

variable {s t : Session κ} {vs : List (Visit κ)} {it : String} {ds : List Bool}

/-- A run whose first step stores under `it`, over the map as it was, a walk with the stretch
`seg` of the entries left, and whose other steps step that walk, hands out after the first step
what a double-ended queue over `seg` hands out, and leaves the map as it was. -/
theorem Runs.after_walk_yields (hc : s.map.Consistent) (h : Runs s vs t) {st : MapStep κ}
    (hvs : vs.map Visit.step = st :: ds.map (walkStep it)) {seg : List (Recency.Entry κ String)}
    (hfirst : ∀ listKeys rep u, s.step listKeys st = .ok (rep, u) → u.map = s.map ∧
      ∃ w, u.walks.lookup it = some w ∧ w.Spans s.map.arena.view.entries seg) :
    vs.tail.map (fun v => v.report.reply) =
        (yields (seg.map Recency.Entry.pair) ds).map Reply.foundEntry ∧ t.map = s.map := by
  cases h with
  | nil => cases hvs
  | @cons _ u _ st' rep vs' listKeys hstep hrest =>
  simp only [List.map_cons, List.cons.injEq] at hvs
  obtain ⟨rfl, hds⟩ := hvs
  obtain ⟨hmap, w, hl, hw⟩ := hfirst listKeys rep u hstep
  rw [← hmap] at hw
  obtain ⟨hreplies, hend⟩ := hrest.walk_yields (hmap ▸ hc) hl hw hds
  exact ⟨hreplies, hend.trans hmap⟩

/-- A walk over the whole map, made and then stepped from either end in any order, hands out the
map's entries as a double-ended queue over them does, and leaves the map as it was. -/
theorem Runs.iter_yields (hc : s.map.Consistent) (hcap : s.map.capacity ≤ maxCapacity)
    (h : Runs s vs t) (hvs : vs.map Visit.step = .iter it :: ds.map (walkStep it)) :
    vs.tail.map (fun v => v.report.reply) = (yields s.map.toList ds).map Reply.foundEntry ∧
      t.map = s.map := by
  have hfirst : ∀ listKeys rep u, s.step listKeys (.iter it) = .ok (rep, u) → u.map = s.map ∧
      ∃ w, u.walks.lookup it = some w ∧
        w.Spans s.map.arena.view.entries s.map.arena.view.entries := by
    intro listKeys rep u hstep
    -- the new walk is stored under its name, over the map as it was
    have hu : u = (exec (setWalk it (some s.map.walk)) { s with events := #[] }).2 := by
      rw [(step_eq_ok hstep).1]
      rfl
    rw [hu]
    exact ⟨rfl, s.map.walk, lookup_setWalk _ it _, Lru.walk_spans hc hcap⟩
  rw [Lru.toList_eq]
  exact h.after_walk_yields hc hvs hfirst

/-- A walk from a cursor at the entry in position `p`, made and then stepped from either end in
any order, hands out the entries from position `p` on as a double-ended queue over them does,
and leaves the map as it was. -/
theorem Runs.cIter_yields (hc : s.map.Consistent) (hcap : s.map.capacity ≤ maxCapacity)
    {c : String} {cur : Cursor} (hl : s.cursors.lookup c = some cur) {p : Nat}
    (hp : s.map.arena.view.slots[p]? = some cur.slot) (h : Runs s vs t)
    (hvs : vs.map Visit.step = .cIter c it :: ds.map (walkStep it)) :
    vs.tail.map (fun v => v.report.reply) =
        (yields (s.map.toList.drop p) ds).map Reply.foundEntry ∧ t.map = s.map := by
  have hfirst : ∀ listKeys rep u, s.step listKeys (.cIter c it) = .ok (rep, u) →
      u.map = s.map ∧ ∃ w, u.walks.lookup it = some w ∧
        w.Spans s.map.arena.view.entries (s.map.arena.view.entries.drop p) := by
    intro listKeys rep u hstep
    -- the name is cleared, then the walk from the cursor stored under it
    have hu : u = (exec (setWalk it (some (cur.walk s.map)))
        (exec (setWalk it none) { s with events := #[] }).2).2 := by
      rw [(step_eq_ok hstep).1]
      simp [perform, hl, Cursor.held?, Except.mapError]
    rw [hu]
    exact ⟨rfl, cur.walk s.map, lookup_setWalk _ it _, Cursor.walk_spans hc hcap hp⟩
  rw [Lru.toList_eq, ← List.map_drop]
  exact h.after_walk_yields hc hvs hfirst

end Walks

/-- The listing steps read the map's entries and keep the map: from the most recent entry on,
cut after `n`, they are what `n` steps from the front of a walk hand out; from the least recent
one back, what `n` steps from its back hand out; and the keys come in the same order. -/
theorem step_listing (s : Session κ) (listKeys : Bool) (n : Nat) :
    (∃ rep t, s.step listKeys (.all (some n)) = .ok (rep, t) ∧
      rep.reply = .pairs ((yields s.map.toList (List.replicate n true)).filterMap id) ∧
      t.map = s.map) ∧
    (∃ rep t, s.step listKeys (.backward (some n)) = .ok (rep, t) ∧
      rep.reply = .pairs ((yields s.map.toList (List.replicate n false)).filterMap id) ∧
      t.map = s.map) ∧
    ∃ rep t, s.step listKeys .keys = .ok (rep, t) ∧
      rep.reply = .keys (s.map.toList.map Prod.fst) ∧ t.map = s.map := by
  refine ⟨⟨_, _, rfl, ?_, rfl⟩, ⟨_, _, rfl, ?_, rfl⟩, ⟨_, _, rfl, ?_, rfl⟩⟩
  · rw [yields_fronts]
    rfl
  · rw [yields_backs]
    rfl
  · simp [Lru.keys, Lru.toList]

/-! ## Sessions a script reaches -/

section Reachable

variable {shape : MapShape κ} {capacity : Int} {setup : SessionSetup κ}

omit [BEq κ] [Hashable κ] [ToString κ] in
/-- A new map has at most the largest capacity: creating it checks that. -/
theorem create?_capacity_le {ι ν : Type} {c : Int} {ix : ι} {m : Lru ι κ ν}
    (h : Lru.create? c ix = .ok m) : m.capacity ≤ maxCapacity := by
  unfold Lru.create? at h
  split at h
  · cases h
  · split at h
    · cases h
    · cases h
      show c.toNat ≤ maxCapacity
      omega

/-- Every map a session reaches has at most the largest capacity: opening the session creates
it within that bound and no step changes the capacity. -/
theorem Reachable.capacity_le (hshape : shape.Lawful) (hmiss : setup.missPush = none)
    (hs : Reachable shape capacity setup s) : s.map.capacity ≤ maxCapacity := by
  induction hs with
  | opened registerTwice h =>
    obtain ⟨ix, m, -, hcreate, hmap, -⟩ := open?_eq_ok h
    rw [hmap]
    exact create?_capacity_le hcreate
  | step listKeys st hreach h ih =>
    rw [((hreach.good hshape hmiss).step_does h).1.capacity_eq]
    exact ih

/-- In every session a script reaches, from lawful keys and with no armed reaction to a miss,
a walk over the whole map, or from a cursor at the entry in position `p`, stepped from either
end any number of times in any order, runs and hands out the entries (from position `p` on) as
a double-ended queue over them does: each exactly once, the front steps from the first on and
the back steps from the last back, until all are out. Listing from the most or from the least
recent entry, cut after `n`, gives what `n` steps from that end hand out, and the keys listed
are the entries' keys in order. None of these steps changes the map. -/
theorem walks_yield_each_entry_once (hshape : shape.Lawful) (hmiss : setup.missPush = none)
    (hs : Reachable shape capacity setup s) (it : String) (ds : List Bool) :
    ((∃ vs t, Runs s vs t ∧ vs.map Visit.step = .iter it :: ds.map (walkStep it)) ∧
      ∀ vs t, Runs s vs t → vs.map Visit.step = .iter it :: ds.map (walkStep it) →
        vs.tail.map (fun v => v.report.reply) = (yields s.map.toList ds).map Reply.foundEntry ∧
        YieldsOnce s.map.toList ds (yields s.map.toList ds) ∧ t.map = s.map) ∧
    (∀ c cur p, s.cursors.lookup c = some cur → s.map.arena.view.slots[p]? = some cur.slot →
      (∃ vs t, Runs s vs t ∧ vs.map Visit.step = .cIter c it :: ds.map (walkStep it)) ∧
      ∀ vs t, Runs s vs t → vs.map Visit.step = .cIter c it :: ds.map (walkStep it) →
        vs.tail.map (fun v => v.report.reply) =
          (yields (s.map.toList.drop p) ds).map Reply.foundEntry ∧
        YieldsOnce (s.map.toList.drop p) ds (yields (s.map.toList.drop p) ds) ∧ t.map = s.map) ∧
    ∀ listKeys n,
      (∃ rep t, s.step listKeys (.all (some n)) = .ok (rep, t) ∧
        rep.reply = .pairs ((yields s.map.toList (List.replicate n true)).filterMap id) ∧
        t.map = s.map) ∧
      (∃ rep t, s.step listKeys (.backward (some n)) = .ok (rep, t) ∧
        rep.reply = .pairs ((yields s.map.toList (List.replicate n false)).filterMap id) ∧
        t.map = s.map) ∧
      ∃ rep t, s.step listKeys .keys = .ok (rep, t) ∧
        rep.reply = .keys (s.map.toList.map Prod.fst) ∧ t.map = s.map := by
  have hc := (hs.good hshape hmiss).consistent
  have hcap := hs.capacity_le hshape hmiss
  -- no session refuses making or stepping a walk
  have hwalks : ∀ st ∈ ds.map (walkStep (κ := κ) it), ∀ u : Session κ, u.refusal? st = none := by
    intro st hst u
    obtain ⟨d, -, rfl⟩ := List.mem_map.1 hst
    cases d <;> rfl
  refine ⟨⟨?_, fun vs t h hvs => ?_⟩, fun c cur p hl hp => ⟨?_, fun vs t h hvs => ?_⟩,
    step_listing s⟩
  · refine runs_of_unrefused _ (fun st hst u => ?_) s
    rcases List.mem_cons.1 hst with rfl | hst
    · rfl
    · exact hwalks st hst u
  · obtain ⟨hreplies, hmap⟩ := h.iter_yields hc hcap hvs
    exact ⟨hreplies, yieldsOnce_yields _ _, hmap⟩
  · refine runs_of_unrefused _ (fun st hst u => ?_) s
    rcases List.mem_cons.1 hst with rfl | hst
    · rfl
    · exact hwalks st hst u
  · obtain ⟨hreplies, hmap⟩ := h.cIter_yields hc hcap hl hp hvs
    exact ⟨hreplies, yieldsOnce_yields _ _, hmap⟩

/-- The witness: a session over natural keys with a hash map of capacity two, just opened, with
no observer, loader, registry or reaction. -/
theorem walks_yield_each_entry_once_opened :
    (MapShape.hashed : MapShape Nat).Lawful ∧
      ({ observers := ⟨false, false, false, false⟩, loader := none, naming := none,
         missPush := none } : SessionSetup Nat).missPush = none ∧
      ∃ s : Session Nat, Reachable .hashed 2
          ({ observers := ⟨false, false, false, false⟩, loader := none, naming := none,
             missPush := none } : SessionSetup Nat) s ∧
        ((∃ vs t, Runs s vs t ∧ vs.map Visit.step = .iter "it" :: [true, false].map
            (walkStep "it")) ∧
          ∀ vs t, Runs s vs t → vs.map Visit.step = .iter "it" :: [true, false].map
              (walkStep "it") →
            vs.tail.map (fun v => v.report.reply) =
              (yields s.map.toList [true, false]).map Reply.foundEntry ∧
            YieldsOnce s.map.toList [true, false] (yields s.map.toList [true, false]) ∧
            t.map = s.map) ∧
        (∀ c cur p, s.cursors.lookup c = some cur → s.map.arena.view.slots[p]? = some cur.slot →
          (∃ vs t, Runs s vs t ∧ vs.map Visit.step = .cIter c "it" :: [true, false].map
              (walkStep "it")) ∧
          ∀ vs t, Runs s vs t → vs.map Visit.step = .cIter c "it" :: [true, false].map
              (walkStep "it") →
            vs.tail.map (fun v => v.report.reply) =
              (yields (s.map.toList.drop p) [true, false]).map Reply.foundEntry ∧
            YieldsOnce (s.map.toList.drop p) [true, false]
              (yields (s.map.toList.drop p) [true, false]) ∧ t.map = s.map) ∧
        ∀ listKeys n,
          (∃ rep t, s.step listKeys (.all (some n)) = .ok (rep, t) ∧
            rep.reply = .pairs ((yields s.map.toList (List.replicate n true)).filterMap id) ∧
            t.map = s.map) ∧
          (∃ rep t, s.step listKeys (.backward (some n)) = .ok (rep, t) ∧
            rep.reply = .pairs ((yields s.map.toList (List.replicate n false)).filterMap id) ∧
            t.map = s.map) ∧
          ∃ rep t, s.step listKeys .keys = .ok (rep, t) ∧
            rep.reply = .keys (s.map.toList.map Prod.fst) ∧ t.map = s.map :=
  have hlaw : (MapShape.hashed : MapShape Nat).Lawful := ⟨inferInstance, inferInstance⟩
  have hs : Reachable .hashed 2
      ({ observers := ⟨false, false, false, false⟩, loader := none, naming := none,
         missPush := none } : SessionSetup Nat) _ := .opened false rfl
  ⟨hlaw, rfl, _, hs, walks_yield_each_entry_once hlaw rfl hs "it" [true, false]⟩

end Reachable

end Session

end RecencyMap
