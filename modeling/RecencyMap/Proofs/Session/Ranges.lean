import RecencyMap.Proofs.Map.Ranges
import RecencyMap.Proofs.Session.Positions

/-!
# The recency-aware range query in a session

On a map over a search tree, asking for the most recent entry of a range whose key satisfies a
condition answers with the first entry of the recency list that is stored under a key in the
range satisfying the condition, and nothing when there is none. It never faults, keeps the map,
and stores under the given name a cursor made at that moment, so its staleness is zero; when
nothing is found, the name is cleared. Asking without a condition is the same with the
condition that accepts everything.

An ascending scan of a range answers with the keys of the tree that lie in the range, in
ascending order, each with the value its entry holds, and with every entry of the map whose key
lies in the range; it leaves the session as it is, so neither the recency order nor the
generation changes.
-/

namespace RecencyMap

namespace Session

variable {κ : Type} [BEq κ] [Hashable κ] [ToString κ] {s : Session κ}

omit [ToString κ] in
/-- Making a cursor at an entry of a consistent map, or none, answers with that entry's key and
value, or with nothing. -/
theorem exec_storeEntry_at (hc : s.map.Consistent) (name : String)
    {o : Option (Recency.Entry κ String)} (ho : ∀ e, o = some e → e ∈ s.map.arena.view.entries) :
    (exec (storeEntry name ((o.map Recency.Entry.slot).map s.map.cursorAt)) s).1 =
      .ok (.foundEntry (o.map Recency.Entry.pair)) := by
  cases o with
  | none => simp [storeEntry, Except.map]
  | some e =>
    obtain ⟨order, h⟩ := hc.shape
    have he := ho e rfl
    simp [storeEntry, Cursor.key, Cursor.value, Cursor.onSlot, Lru.cursorAt, h.key?_live he,
      h.value?_live he, Except.mapError, Except.map, Recency.Entry.pair]

omit [ToString κ] in
/-- On a consistent map over a search tree, asking for the most recent entry of `r` whose key
satisfies `cond` answers with the first entry of the recency list stored under a key in `r`
that satisfies `cond`, and leaves the session as storing a fresh cursor at it under `c` does. -/
theorem exec_mostRecentBy_first (hc : s.map.Consistent) {cmp : κ → κ → Ordering}
    {t : Std.TreeMap κ Slot cmp} (hix : s.map.index = .ordered cmp t) (r : KeyRange κ)
    (cond : κ → String → Bool) (c : String) :
    (exec (mostRecentBy r cond c) s).1 = .ok (.foundEntry
      ((s.map.arena.view.entries.find? (·.storedIn t r cond)).map Recency.Entry.pair)) ∧
    (exec (mostRecentBy r cond c) s).2 = (exec (setCursor c
      (((s.map.arena.view.entries.find? (·.storedIn t r cond)).map Recency.Entry.slot).map
        s.map.cursorAt)) s).2 := by
  obtain ⟨hscan, hbest⟩ := hc.mostRecentAmong_inTree hix r cond
  -- the scan and the choice read the map; what is left is storing the cursor
  have hrun : exec (mostRecentBy r cond c) s = exec (storeEntry c
      (((s.map.arena.view.entries.find? (·.storedIn t r cond)).map Recency.Entry.slot).map
        s.map.cursorAt)) s := by
    simp [mostRecentBy, exec_scanOf hscan, hbest, Except.mapError]
  rw [hrun]
  exact ⟨exec_storeEntry_at hc c fun e he => List.mem_of_find?_eq_some he,
    exec_storeEntry s c _⟩

/-- On a consistent map over a search tree, an ascending scan of `r` answers, as far as the limit,
with the keys of the scan in order, each with the value its entry holds now, and leaves the
session as it is. -/
theorem exec_ascend_values (hc : s.map.Consistent) {cmp : κ → κ → Ordering}
    {t : Std.TreeMap κ Slot cmp} (hix : s.map.index = .ordered cmp t) (r : KeyRange κ)
    (limit : Option Nat) :
    ∃ ps, exec (perform (.ascend r limit)) s = (.ok (.pairs (takeLimit limit ps)), s) ∧
      ps.map Prod.fst = (r.inTree t).map Prod.fst ∧
      (∀ q ∈ ps, s.map.peek q.1 = .ok (some q.2)) ∧
      ∀ p ∈ r.inTree t, ∃ q ∈ ps, q.1 = p.1 ∧ s.map.arena.value? p.2 = .ok q.2 := by
  have hscan : s.map.index.scan? r = some (r.inTree t) := by
    rw [hix]
    rfl
  obtain ⟨ps, hps, hkeys, hpeek, hfound⟩ :=
    hc.valuesAmong_found (Lru.scan_find? hc.describes.lawful hscan)
  -- a limit reads the values of a prefix of the scan, which are a prefix of its values
  have htake : s.map.valuesAmong (takeLimit limit (r.inTree t)) = .ok (takeLimit limit ps) := by
    cases limit with
    | none => exact hps
    | some n => exact mapM_take_of_ok hps n
  refine ⟨ps, ?_, hkeys, hpeek, hfound⟩
  simp [perform, exec_scanOf hscan, htake, Except.mapError, Except.map]

section Reachable

variable {shape : MapShape κ} {capacity : Int} {setup : SessionSetup κ}

/-- In every session a script reaches, from lawful keys and with no armed reaction to a miss,
whose map keeps its keys in a search tree under any lawful comparator, asking for the most
recent entry of any range `r` whose key satisfies any condition `cond` answers with the first
entry of the recency list stored under a key in `r` satisfying `cond`, or with nothing when
there is none. It never faults and keeps the map; the cursor it stores under `c` stands at that
entry and was made from the map as it is, so its staleness is zero. Asking with no condition,
as a step, answers the same for the condition that accepts everything. -/
theorem most_recent_in_range_first_match (hshape : shape.Lawful)
    (hmiss : setup.missPush = none) (hs : Reachable shape capacity setup s)
    {cmp : κ → κ → Ordering} {t : Std.TreeMap κ Slot cmp} (hix : s.map.index = .ordered cmp t)
    (r : KeyRange κ) (cond : κ → String → Bool) (c : String) :
    (exec (mostRecentBy r cond c) s).1 = .ok (.foundEntry
      ((s.map.arena.view.entries.find? (·.storedIn t r cond)).map Recency.Entry.pair)) ∧
    (exec (mostRecentBy r cond c) s).2.map = s.map ∧
    (exec (mostRecentBy r cond c) s).2.cursors.lookup c =
      ((s.map.arena.view.entries.find? (·.storedIn t r cond)).map Recency.Entry.slot).map
        s.map.cursorAt ∧
    (∀ cur, (exec (mostRecentBy r cond c) s).2.cursors.lookup c = some cur →
      cur.staleness s.map = 0) ∧
    ∀ listKeys, ∃ rep u, s.step listKeys (.mostRecent r c) = .ok (rep, u) ∧
      rep.reply = .foundEntry ((s.map.arena.view.entries.find?
        (·.storedIn t r fun _ _ => true)).map Recency.Entry.pair) ∧
      u.map = s.map ∧ u.cursors.lookup c = ((s.map.arena.view.entries.find?
        (·.storedIn t r fun _ _ => true)).map Recency.Entry.slot).map s.map.cursorAt := by
  have hc := (hs.good hshape hmiss).consistent
  obtain ⟨hans, hstate⟩ := exec_mostRecentBy_first hc hix r cond c
  have hstored : (exec (mostRecentBy r cond c) s).2.cursors.lookup c =
      ((s.map.arena.view.entries.find? (·.storedIn t r cond)).map Recency.Entry.slot).map
        s.map.cursorAt := by
    rw [hstate, exec_setCursor]
    exact lookup_store_self s.cursors c _
  refine ⟨hans, by rw [hstate]; rfl, hstored, fun cur hcur => ?_, fun listKeys => ?_⟩
  · -- a cursor made from the map has seen none of its changes
    rw [hstored] at hcur
    obtain ⟨x, -, rfl⟩ := Option.map_eq_some_iff.mp hcur
    simp [Cursor.staleness, Lru.cursorAt]
  · -- the step runs the same query, with the condition that accepts everything
    have hr : s.refusal? (.mostRecent r c) = none := by
      simp [refusal?, hix]
    obtain ⟨rep, h, hrep⟩ := step_runs hr listKeys
    obtain ⟨hans', hstate'⟩ := exec_mostRecentBy_first (s := { s with events := #[] }) hc hix r
      (fun _ _ => true) c
    have hperf : perform (.mostRecent r c) = mostRecentBy (κ := κ) r (fun _ _ => true) c := rfl
    rw [hperf, hans'] at hrep
    rw [hperf] at h
    refine ⟨rep, _, h, hrep, by rw [hstate']; rfl, ?_⟩
    rw [hstate', exec_setCursor]
    exact lookup_store_self s.cursors c _

/-- The witness: an ordered map of capacity three over integer keys holding two entries, asked
for the most recent entry with a key from one to two. -/
theorem most_recent_in_range_first_match_two_keys :
    ∃ (s : Session Int) (cmp : Int → Int → Ordering) (t : Std.TreeMap Int Slot cmp),
      (MapShape.ordered (some compare) : MapShape Int).Lawful ∧
      ({ observers := ⟨false, false, false, false⟩, loader := none, naming := none,
         missPush := none } : SessionSetup Int).missPush = none ∧
      Reachable (.ordered (some compare)) 3
        ({ observers := ⟨false, false, false, false⟩, loader := none, naming := none,
           missPush := none } : SessionSetup Int) s ∧
      s.map.index = .ordered cmp t ∧
      (exec (mostRecentBy (.between 1 2) (fun _ _ => true) "c") s).1 = .ok (.foundEntry
        ((s.map.arena.view.entries.find? (·.storedIn t (.between 1 2) fun _ _ => true)).map
          Recency.Entry.pair)) ∧
      (exec (mostRecentBy (.between 1 2) (fun _ _ => true) "c") s).2.map = s.map ∧
      (exec (mostRecentBy (.between 1 2) (fun _ _ => true) "c") s).2.cursors.lookup "c" =
        ((s.map.arena.view.entries.find? (·.storedIn t (.between 1 2) fun _ _ => true)).map
          Recency.Entry.slot).map s.map.cursorAt ∧
      (∀ cur, (exec (mostRecentBy (.between 1 2) (fun _ _ => true) "c") s).2.cursors.lookup
        "c" = some cur → cur.staleness s.map = 0) ∧
      ∀ listKeys, ∃ rep u, s.step listKeys (.mostRecent (.between 1 2) "c") = .ok (rep, u) ∧
        rep.reply = .foundEntry ((s.map.arena.view.entries.find?
          (·.storedIn t (.between 1 2) fun _ _ => true)).map Recency.Entry.pair) ∧
        u.map = s.map ∧ u.cursors.lookup "c" = ((s.map.arena.view.entries.find?
          (·.storedIn t (.between 1 2) fun _ _ => true)).map Recency.Entry.slot).map
            s.map.cursorAt := by
  have hlaw := MapShape.lawful_ordered_compare
  have hok : ((open? (.ordered (some compare) : MapShape Int) 3
      ({ observers := ⟨false, false, false, false⟩, loader := none, naming := none,
         missPush := none } : SessionSetup Int) false).toOption.bind fun s0 =>
      (s0.step false (.push 1 "a")).toOption.bind fun p1 =>
      (p1.2.step false (.push 2 "b")).toOption.map fun p2 =>
        match p2.2.map.index with
        | .ordered .. => true
        | .hashed _ => false) = some true := by
    decide +kernel
  cases h0 : open? (.ordered (some compare) : MapShape Int) 3
      ({ observers := ⟨false, false, false, false⟩, loader := none, naming := none,
         missPush := none } : SessionSetup Int) false with
  | error e => simp [h0, Except.toOption] at hok
  | ok s0 =>
  cases h1 : s0.step false (.push 1 "a") with
  | error e => simp [h0, h1, Except.toOption] at hok
  | ok p1 =>
  cases h2 : p1.2.step false (.push 2 "b") with
  | error e => simp [h0, h1, h2, Except.toOption] at hok
  | ok p2 =>
  have hs : Reachable (.ordered (some compare)) 3
      ({ observers := ⟨false, false, false, false⟩, loader := none, naming := none,
         missPush := none } : SessionSetup Int) p2.2 :=
    .step false _ (.step false _ (.opened false h0) h1) h2
  cases hix : p2.2.map.index with
  | hashed ix => simp [h0, h1, h2, hix, Except.toOption] at hok
  | ordered cmp t =>
    exact ⟨p2.2, cmp, t, hlaw, rfl, hs, hix,
      most_recent_in_range_first_match hlaw rfl hs hix (.between 1 2) (fun _ _ => true) "c"⟩

/-- In every session a script reaches, from lawful keys and with no armed reaction to a miss,
whose map keeps its keys in a search tree `t` under a comparator `cmp`, and for every range `r`:

* a scan of `r` with a callback, over `t` or any other tree under `cmp` and in any lawful monad,
  calls the callback on exactly the tree's entries whose keys lie in `r`, in ascending order,
  and stops right after the first call that answers `false`; when the ends of `r` are inverted,
  it calls nothing;
* an ascending step over `r` answers, as far as its limit, with the keys of `t` that lie in `r`
  in ascending order, each with the value its entry holds now, and with every entry of the map
  whose key lies in `r`; it reports no event and leaves the session as it was, so the recency
  order and the generation do not change. -/
theorem ascend_visits_range_in_order (hshape : shape.Lawful) (hmiss : setup.missPush = none)
    (hs : Reachable shape capacity setup s) {cmp : κ → κ → Ordering}
    {t : Std.TreeMap κ Slot cmp} (hix : s.map.index = .ordered cmp t) (r : KeyRange κ) :
    (∀ {α : Type} (t' : Std.TreeMap κ α cmp) {m : Type → Type} [Monad m] [LawfulMonad m]
        (fn : κ → α → m Bool),
      r.range t' fn = discard ((t'.toList.filter fun e => r.contains cmp e.1).allM
        fun e => fn e.1 e.2) ∧
      (r.Inverted cmp → r.range t' fn = pure ())) ∧
    ∀ limit listKeys, ∃ ps, s.step listKeys (.ascend r limit) = .ok
        ({ reply := .pairs (takeLimit limit ps), events := [],
           keys := if listKeys then some s.map.keys else none }, { s with events := #[] }) ∧
      ps.map Prod.fst = t.keys.filter (r.contains cmp) ∧
      ps.Pairwise (fun p q => cmp p.1 q.1 = .lt) ∧
      (∀ p ∈ ps, s.map.peek p.1 = .ok (some p.2)) ∧
      ∀ q ∈ s.map.toList, r.contains cmp q.1 = true →
        ∃ p ∈ ps, cmp p.1 q.1 = .eq ∧ p.2 = q.2 := by
  have hc := (hs.good hshape hmiss).consistent
  have hlaw : Std.TransCmp cmp := by
    have hl := hc.describes.lawful
    rw [hix] at hl
    exact hl
  refine ⟨?_, fun limit listKeys => ?_⟩
  · intro α t' m _ _ fn
    exact ⟨KeyRange.range_eq_allM_filter r t' fn, fun hr => KeyRange.range_of_inverted hr t' fn⟩
  obtain ⟨ps, hexec, hkeys, hpeek, hfound⟩ :=
    exec_ascend_values (s := { s with events := #[] }) hc hix r limit
  -- the keys visited are the tree's keys in the range, in the tree's ascending order
  have hkeys' : ps.map Prod.fst = t.keys.filter (r.contains cmp) :=
    hkeys.trans (KeyRange.map_fst_inTree r t)
  have hsorted : ps.Pairwise (fun p q => cmp p.1 q.1 = .lt) := by
    have hmap : (ps.map Prod.fst).Pairwise fun a b => cmp a b = .lt := by
      rw [hkeys']
      exact Std.TreeMap.ordered_keys.filter _
    exact List.pairwise_map.mp hmap
  refine ⟨ps, ?_, hkeys', hsorted, hpeek, fun q hq hin => ?_⟩
  · have hr : s.refusal? (.ascend r limit) = none := by
      simp [refusal?, hix]
    have hrun : ((perform (.ascend r limit)).run { s with events := #[] }).run =
        exec (perform (.ascend r limit)) { s with events := #[] } := rfl
    unfold Session.step
    simp only [hr, hrun, hexec]
  · -- an entry of the map is scanned under a key the comparator takes for its own
    obtain ⟨e, he, rfl⟩ := List.mem_map.mp (Lru.toList_eq (m := s.map) ▸ hq)
    obtain ⟨k', hk', hin'⟩ := hc.mem_inTree hix r he hin
    obtain ⟨p, hp, hpk, hpv⟩ := hfound _ hin'
    obtain ⟨order, hshape'⟩ := hc.shape
    rw [hshape'.value?_live he] at hpv
    refine ⟨p, hp, ?_, (Except.ok.inj hpv).symm⟩
    rw [hpk]
    exact Std.OrientedCmp.eq_symm hk'

/-- The witness: an ordered map of capacity three over integer keys holding two entries, scanned
from one to two. -/
theorem ascend_visits_range_in_order_two_keys :
    ∃ (s : Session Int) (cmp : Int → Int → Ordering) (t : Std.TreeMap Int Slot cmp),
      (MapShape.ordered (some compare) : MapShape Int).Lawful ∧
      ({ observers := ⟨false, false, false, false⟩, loader := none, naming := none,
         missPush := none } : SessionSetup Int).missPush = none ∧
      Reachable (.ordered (some compare)) 3
        ({ observers := ⟨false, false, false, false⟩, loader := none, naming := none,
           missPush := none } : SessionSetup Int) s ∧
      s.map.index = .ordered cmp t ∧
      (∀ {α : Type} (t' : Std.TreeMap Int α cmp) {m : Type → Type} [Monad m] [LawfulMonad m]
          (fn : Int → α → m Bool),
        (KeyRange.between 1 2).range t' fn =
          discard ((t'.toList.filter fun e => (KeyRange.between 1 2).contains cmp e.1).allM
            fun e => fn e.1 e.2) ∧
        ((KeyRange.between 1 2).Inverted cmp → (KeyRange.between 1 2).range t' fn = pure ())) ∧
      ∀ limit listKeys, ∃ ps, s.step listKeys (.ascend (.between 1 2) limit) = .ok
          ({ reply := .pairs (takeLimit limit ps), events := [],
             keys := if listKeys then some s.map.keys else none }, { s with events := #[] }) ∧
        ps.map Prod.fst = t.keys.filter ((KeyRange.between 1 2).contains cmp) ∧
        ps.Pairwise (fun p q => cmp p.1 q.1 = .lt) ∧
        (∀ p ∈ ps, s.map.peek p.1 = .ok (some p.2)) ∧
        ∀ q ∈ s.map.toList, (KeyRange.between 1 2).contains cmp q.1 = true →
          ∃ p ∈ ps, cmp p.1 q.1 = .eq ∧ p.2 = q.2 := by
  have hlaw := MapShape.lawful_ordered_compare
  have hok : ((open? (.ordered (some compare) : MapShape Int) 3
      ({ observers := ⟨false, false, false, false⟩, loader := none, naming := none,
         missPush := none } : SessionSetup Int) false).toOption.bind fun s0 =>
      (s0.step false (.push 1 "a")).toOption.bind fun p1 =>
      (p1.2.step false (.push 2 "b")).toOption.map fun p2 =>
        match p2.2.map.index with
        | .ordered .. => true
        | .hashed _ => false) = some true := by
    decide +kernel
  cases h0 : open? (.ordered (some compare) : MapShape Int) 3
      ({ observers := ⟨false, false, false, false⟩, loader := none, naming := none,
         missPush := none } : SessionSetup Int) false with
  | error e => simp [h0, Except.toOption] at hok
  | ok s0 =>
  cases h1 : s0.step false (.push 1 "a") with
  | error e => simp [h0, h1, Except.toOption] at hok
  | ok p1 =>
  cases h2 : p1.2.step false (.push 2 "b") with
  | error e => simp [h0, h1, h2, Except.toOption] at hok
  | ok p2 =>
  have hs : Reachable (.ordered (some compare)) 3
      ({ observers := ⟨false, false, false, false⟩, loader := none, naming := none,
         missPush := none } : SessionSetup Int) p2.2 :=
    .step false _ (.step false _ (.opened false h0) h1) h2
  cases hix : p2.2.map.index with
  | hashed ix => simp [h0, h1, h2, hix, Except.toOption] at hok
  | ordered cmp t =>
    exact ⟨p2.2, cmp, t, hlaw, rfl, hs, hix,
      ascend_visits_range_in_order hlaw rfl hs hix (.between 1 2)⟩

end Reachable

end Session

end RecencyMap
