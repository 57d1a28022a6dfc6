import RecencyMap.Proofs.Map.Consistent
import RecencyMap.RangeQuery

/-!
# Reads through slots

A cursor, a walk and a range query all read the arena through slots, and every such read
checks first that the slot is live. So each of them faults only at a slot that holds nothing,
and on a consistent map the operations that change it through a cursor, touching and taking,
leave a consistent map when they succeed. A scan of an ordered index visits only slots that the
index records, which on a consistent map are live; a range query there never faults.
-/

namespace RecencyMap

namespace Arena

variable {κ ν : Type} {a : Arena κ ν} {s : Slot}

/-- A live slot passes the liveness check of every use. -/
theorem live?_of_live (h : a.live s = true) (use : SlotUse) :
    ∃ n, a.node? s = some n ∧ a.live? use s = .ok n := by
  obtain ⟨n, hn⟩ := Option.isSome_iff_exists.mp h
  exact ⟨n, hn, by simp [live?, hn]⟩

/-- A read through the liveness check faults only at a dead slot. -/
theorem live_of_map_error {α : Type} {f : Node κ ν → α} {use : SlotUse} {e : ArenaFault}
    (h : f <$> a.live? use s = .error e) : a.live s = false := by
  cases hn : a.node? s with
  | none => simp [live, hn]
  | some n => simp [live?, hn, Functor.map, Except.map] at h

theorem live_of_age?_error {e : ArenaFault} (h : a.age? s = .error e) : a.live s = false := by
  cases hn : a.node? s with
  | none => simp [live, hn]
  | some n => simp [age?, seq?, live?, hn, Functor.map, Except.map] at h

theorem live_of_moveToHead_error {e : ArenaFault} (h : a.moveToHead s = .error e) :
    a.live s = false := by
  cases hn : a.node? s with
  | none => simp [live, hn]
  | some n =>
    simp only [moveToHead, live?, hn, bind, Except.bind, pure, Except.pure] at h
    split at h <;> cases h

theorem live_of_remove_error {e : ArenaFault} (h : a.remove s = .error e) : a.live s = false := by
  cases hn : a.node? s with
  | none => simp [live, hn]
  | some n => simp [remove, live?, hn, bind, Except.bind, pure, Except.pure] at h

end Arena

/-! ## Cursors -/

namespace Cursor

variable {ι κ ν : Type} {m : Lru ι κ ν} {c : Cursor} {e : CursorFault}

theorem onSlot_error {α : Type} {r : Except ArenaFault α} (h : onSlot r = .error e) :
    ∃ e', r = .error e' := by
  cases r with
  | error e' => exact ⟨e', rfl⟩
  | ok a => cases h

theorem live_of_key_error (h : c.key m = .error e) : m.arena.live c.slot = false := by
  obtain ⟨e', h'⟩ := onSlot_error h
  exact Arena.live_of_map_error h'

theorem live_of_value_error (h : c.value m = .error e) : m.arena.live c.slot = false := by
  obtain ⟨e', h'⟩ := onSlot_error h
  exact Arena.live_of_map_error h'

theorem live_of_age_error (h : c.age m = .error e) : m.arena.live c.slot = false := by
  obtain ⟨e', h'⟩ := onSlot_error h
  exact Arena.live_of_age?_error h'

theorem live_of_touch_error (h : c.touch m = .error e) : m.arena.live c.slot = false := by
  cases hm : m.arena.moveToHead c.slot with
  | error e' => exact Arena.live_of_moveToHead_error hm
  | ok a => simp [touch, onSlot, hm, bind, Except.bind, Except.mapError, pure, Except.pure] at h

/-- Stepping faults only at a dead slot, in either direction. -/
theorem live_of_move_error {towardsTail : Bool}
    (h : (if towardsTail then c.moveNext m else c.movePrev m) = .error e) :
    m.arena.live c.slot = false := by
  cases towardsTail with
  | true =>
    cases hn : m.arena.next? c.slot with
    | error e' => exact Arena.live_of_map_error hn
    | ok n =>
      simp only [moveNext, onSlot, hn, Except.mapError, bind, Except.bind, pure, Except.pure,
        if_true] at h
      split at h <;> cases h
  | false =>
    cases hp : m.arena.prev? c.slot with
    | error e' => exact Arena.live_of_map_error hp
    | ok p =>
      simp only [movePrev, onSlot, hp, Except.mapError, bind, Except.bind, pure, Except.pure,
        Bool.false_eq_true, if_false] at h
      split at h <;> cases h

theorem key_of_node {n : Node κ ν} (hn : m.arena.node? c.slot = some n) :
    c.key m = .ok n.key := by
  simp [key, onSlot, Arena.key?, Arena.live?, hn, Except.mapError, Functor.map, Except.map]

theorem value_of_node {n : Node κ ν} (hn : m.arena.node? c.slot = some n) :
    c.value m = .ok n.value := by
  simp [value, onSlot, Arena.value?, Arena.live?, hn, Except.mapError, Functor.map, Except.map]

theorem live_of_take_error [KeyIndex ι κ] {towardsTail : Bool}
    (h : c.take m towardsTail = .error e) : m.arena.live c.slot = false := by
  cases hr : m.arena.remove c.slot with
  | error e' => exact Arena.live_of_remove_error hr
  | ok p =>
    simp [take, Lru.take, onSlot, hr, bind, Except.bind, Except.mapError, pure, Except.pure] at h

end Cursor

/-! ## Walks -/

namespace Walk

variable {κ ν : Type} {a : Arena κ ν} {w : Walk} {e : ArenaFault}

/-- Reading an entry faults only at a dead slot. -/
theorem live_of_entryAt_error {s : Slot} (h : entryAt a s = .error e) : a.live s = false := by
  cases hn : a.node? s with
  | none => simp [Arena.live, hn]
  | some n =>
    simp [entryAt, Arena.key?, Arena.value?, Arena.live?, hn, bind, Except.bind, pure,
      Except.pure, Functor.map, Except.map] at h

/-- A step from the front faults only when the walk is not done and its front is dead. -/
theorem next_error (h : (w.next a).2 = .error e) : w.done = false ∧ a.live w.front = false := by
  cases hd : w.done with
  | true => simp [next, hd] at h
  | false =>
    refine ⟨rfl, ?_⟩
    -- the walk moves, or it faults on the link; either way the front is read
    simp only [next, hd, Bool.false_eq_true, if_false] at h
    split at h
    · rename_i e' hmoved
      split at hmoved
      · cases hmoved
      · cases hn : a.next? w.front with
        | error e'' => exact Arena.live_of_map_error hn
        | ok n => simp [hn, Functor.map, Except.map] at hmoved
    · cases hr : entryAt a w.front with
      | error e' => exact live_of_entryAt_error hr
      | ok p => simp [hr, Functor.map, Except.map] at h

/-- A step from the back faults only when the walk is not done and its back is dead. -/
theorem nextBack_error (h : (w.nextBack a).2 = .error e) :
    w.done = false ∧ a.live w.back = false := by
  cases hd : w.done with
  | true => simp [nextBack, hd] at h
  | false =>
    refine ⟨rfl, ?_⟩
    simp only [nextBack, hd, Bool.false_eq_true, if_false] at h
    split at h
    · rename_i e' hmoved
      split at hmoved
      · cases hmoved
      · cases hp : a.prev? w.back with
        | error e'' => exact Arena.live_of_map_error hp
        | ok p => simp [hp, Functor.map, Except.map] at hmoved
    · cases hr : entryAt a w.back with
      | error e' => exact live_of_entryAt_error hr
      | ok p => simp [hr, Functor.map, Except.map] at h

end Walk

/-! ## Consistent maps -/

namespace Lru

variable {κ ν : Type} [BEq κ] [Hashable κ] {m : Lru (SomeIndex κ) κ ν}

theorem Consistent.live_of_mem (hc : m.Consistent) {e : Recency.Entry κ ν}
    (he : e ∈ m.arena.view.entries) : m.arena.live e.slot = true := by
  obtain ⟨order, h⟩ := hc.shape
  rw [← h.view_live]
  simp [Recency.live, Recency.find?_of_mem h.view_nodup he]

theorem Consistent.mem_of_live (hc : m.Consistent) {s : Slot} (hs : m.arena.live s = true) :
    ∃ e ∈ m.arena.view.entries, e.slot = s := by
  obtain ⟨order, h⟩ := hc.shape
  rw [← h.view_live] at hs
  obtain ⟨e, he⟩ := Option.isSome_iff_exists.mp hs
  exact ⟨e, List.mem_of_find?_eq_some he, by simpa using List.find?_some he⟩

/-- Every slot is an entry's, or dead. -/
theorem Consistent.live_cases (hc : m.Consistent) (s : Slot) :
    (∃ e ∈ m.arena.view.entries, e.slot = s) ∨ m.arena.live s = false := by
  cases hs : m.arena.live s with
  | true => exact Or.inl (hc.mem_of_live hs)
  | false => exact Or.inr rfl

/-- A slot the index records is live. -/
theorem Consistent.live_of_find? (hc : m.Consistent) {k : κ} {s : Slot}
    (hs : m.find? k = some s) : m.arena.live s = true := by
  obtain ⟨e, he, rfl, -⟩ := hc.find?_some hs
  exact hc.live_of_mem he

theorem Consistent.live_of_head (hc : m.Consistent) {s : Slot} (hs : m.arena.head = some s) :
    m.arena.live s = true := by
  rw [hc.head_eq] at hs
  obtain ⟨e, he, rfl⟩ := Option.map_eq_some_iff.mp hs
  exact hc.live_of_mem (List.mem_of_mem_head? he)

theorem Consistent.live_of_tail (hc : m.Consistent) {s : Slot} (hs : m.arena.tail = some s) :
    m.arena.live s = true := by
  obtain ⟨order, h⟩ := hc.shape
  have htail : m.arena.tail = m.arena.view.entries.getLast?.map Recency.Entry.slot := by
    rw [h.tail_eq, ← h.view_slots, Recency.slots, List.getLast?_map]
  rw [htail] at hs
  obtain ⟨e, he, rfl⟩ := Option.map_eq_some_iff.mp hs
  exact hc.live_of_mem (List.mem_of_getLast? he)

/-- Touching through a cursor at a live entry moves the entry to the front. -/
theorem Consistent.touch_live (hc : m.Consistent) {e : Recency.Entry κ ν}
    (he : e ∈ m.arena.view.entries) (c : Cursor) (hs : c.slot = e.slot) :
    ∃ m', c.touch m = .ok ({ c with stamp := m.generation + 1 }, m') ∧
      m'.Follows m ({ e with seq := m.generation + 1 } ::
        m.arena.view.entries.filter fun x => x.slot != e.slot) := by
  obtain ⟨⟨order, hshape⟩, hdesc⟩ := hc
  obtain ⟨a, ix⟩ := m
  obtain ⟨a1, hmove, hview1, hshape1⟩ := hshape.moveToHead_live he
  have hgen : a1.generation = a.generation + 1 := by
    show a1.view.generation = a.view.generation + 1
    rw [hview1]
  refine ⟨⟨a1, ix⟩, ?_, ⟨⟨_, hshape1⟩, ?_⟩, ?_, ?_, rfl⟩
  · simp [Cursor.touch, Cursor.onSlot, hs, hmove, hgen, bind, Except.bind, Except.mapError,
      pure, Except.pure]
    rfl
  · rw [hview1]
    exact hdesc.move he _
  · rw [hview1]
    rfl
  · show a1.view.capacity = a.view.capacity
    rw [hview1]

/-- A touch that succeeds leaves a map that follows. -/
theorem Consistent.touch_ok (hc : m.Consistent) {c c' : Cursor} {m' : Lru (SomeIndex κ) κ ν}
    (h : c.touch m = .ok (c', m')) : ∃ es, m'.Follows m es := by
  rcases hc.live_cases c.slot with ⟨e, he, hs⟩ | hdead
  · obtain ⟨m'', htouch, hf⟩ := hc.touch_live he c hs.symm
    rw [htouch] at h
    cases h
    exact ⟨_, hf⟩
  · have hmove : m.arena.moveToHead c.slot = .error (.deadSlot .moveToHead c.slot) := by
      simp [Arena.moveToHead, Arena.live?, Arena.live] at hdead ⊢
      simp [hdead, bind, Except.bind]
    simp [Cursor.touch, Cursor.onSlot, hmove, bind, Except.bind, Except.mapError] at h

/-- A take through a cursor that succeeds leaves a map that follows. -/
theorem Consistent.cursor_take_ok (hc : m.Consistent) {c : Cursor} {towardsTail : Bool}
    {r : (κ × ν) × Option Cursor} {m' : Lru (SomeIndex κ) κ ν} {sigs : List (Signal κ ν)}
    (h : c.take m towardsTail = .ok (r, m', sigs)) : ∃ es, m'.Follows m es := by
  rcases hc.live_cases c.slot with ⟨e, he, hs⟩ | hdead
  · obtain ⟨m'', sigs', htake, hf⟩ := hc.cursor_take_live he c hs.symm towardsTail
    rw [htake] at h
    cases h
    exact ⟨_, hf⟩
  · have hrem : m.arena.remove c.slot = .error (.deadSlot .remove c.slot) := by
      simp [Arena.remove, Arena.live?, Arena.live] at hdead ⊢
      simp [hdead]
    simp [Cursor.take, Lru.take, Cursor.onSlot, hrem, bind, Except.bind, Except.mapError] at h

/-! ## Scans -/

/-- A scan visits only slots that the index records for the keys it visits them under. -/
theorem scan_find? {r : KeyRange κ} {entries : List (κ × Slot)} (hlaw : m.index.Lawful)
    (h : m.index.scan? r = some entries) : ∀ p ∈ entries, m.find? p.1 = some p.2 := by
  obtain ⟨a, ix⟩ := m
  cases ix with
  | hashed t => cases h
  | ordered cmp t =>
    have : Std.TransCmp cmp := hlaw
    simp only [SomeIndex.scan?, Option.some.injEq] at h
    subst h
    intro p hp
    -- a scan keeps some of the tree's entries, in order
    have hsub : List.Sublist (r.inTree t) t.toList := by
      unfold KeyRange.inTree KeyRange.scan
      exact ((List.filter_sublist).trans (List.takeWhile_sublist _)).trans
        (List.dropWhile_sublist _)
    have hmem : (p.1, p.2) ∈ t.toList := hsub.subset hp
    exact (Std.TreeMap.mem_toList_iff_getKey?_eq_some_and_getElem?_eq_some.mp hmem).2

theorem Consistent.scan_live (hc : m.Consistent) {r : KeyRange κ} {entries : List (κ × Slot)}
    (h : m.index.scan? r = some entries) : ∀ p ∈ entries, m.arena.live p.2 = true :=
  fun p hp => hc.live_of_find? (scan_find? hc.describes.lawful h p hp)

/-- The most recent of scanned live slots is found without a fault, and is one of them. -/
theorem mostRecentAmong_go_live (cond : κ → ν → Bool) :
    ∀ (entries : List (κ × Slot)) (best : Option (Slot × Nat)),
      (∀ p ∈ entries, m.arena.live p.2 = true) →
      ∃ r, mostRecentAmong.go m cond best entries = .ok r ∧
        ∀ s q, r = some (s, q) → best = some (s, q) ∨ ∃ k, (k, s) ∈ entries := by
  intro entries
  induction entries with
  | nil => exact fun best _ => ⟨best, rfl, fun s q h => Or.inl h⟩
  | cons p rest ih =>
    intro best hlive
    obtain ⟨k, t⟩ := p
    obtain ⟨n, hn, -⟩ := Arena.live?_of_live (hlive (k, t) List.mem_cons_self) .value
    have hrest : ∀ p ∈ rest, m.arena.live p.2 = true :=
      fun p hp => hlive p (List.mem_cons_of_mem _ hp)
    -- the entry's value and stamp are read, then the walk goes on with the better candidate
    by_cases hcond : cond k n.value = true
    · obtain ⟨r, hgo, hr⟩ := ih (pickNewer best t n.seq) hrest
      refine ⟨r, ?_, fun s q hsq => ?_⟩
      · simp [mostRecentAmong.go, Arena.value?, Arena.seq?, Arena.live?, hn, hcond, hgo, bind,
          Except.bind, Functor.map, Except.map]
      · rcases hr s q hsq with hbest | ⟨k', hk'⟩
        · unfold pickNewer at hbest
          split at hbest
          · split at hbest
            · cases hbest
              exact Or.inr ⟨k, List.mem_cons_self⟩
            · exact Or.inl hbest
          · cases hbest
            exact Or.inr ⟨k, List.mem_cons_self⟩
        · exact Or.inr ⟨k', List.mem_cons_of_mem _ hk'⟩
    · obtain ⟨r, hgo, hr⟩ := ih best hrest
      refine ⟨r, ?_, fun s q hsq => ?_⟩
      · simp [mostRecentAmong.go, Arena.value?, Arena.live?, hn, hcond, hgo, bind, Except.bind,
          Functor.map, Except.map]
      · rcases hr s q hsq with hbest | ⟨k', hk'⟩
        · exact Or.inl hbest
        · exact Or.inr ⟨k', List.mem_cons_of_mem _ hk'⟩

theorem mostRecentAmong_live (cond : κ → ν → Bool) {entries : List (κ × Slot)}
    (hlive : ∀ p ∈ entries, m.arena.live p.2 = true) :
    ∃ r, m.mostRecentAmong cond entries = .ok r ∧
      ∀ s, r = some s → m.arena.live s = true := by
  obtain ⟨r, hgo, hr⟩ := mostRecentAmong_go_live cond entries none hlive
  refine ⟨r.map Prod.fst, by simp [mostRecentAmong, hgo, Functor.map, Except.map], ?_⟩
  intro s hs
  obtain ⟨⟨s', q⟩, hsq, rfl⟩ := Option.map_eq_some_iff.mp hs
  rcases hr s' q hsq with hnone | ⟨k, hk⟩
  · cases hnone
  · exact hlive (k, s') hk

theorem valuesAmong_live {entries : List (κ × Slot)}
    (hlive : ∀ p ∈ entries, m.arena.live p.2 = true) :
    ∃ r, m.valuesAmong entries = .ok r := by
  unfold valuesAmong
  induction entries with
  | nil => exact ⟨[], rfl⟩
  | cons p rest ih =>
    obtain ⟨k, t⟩ := p
    obtain ⟨n, hn, -⟩ := Arena.live?_of_live (hlive (k, t) List.mem_cons_self) .value
    obtain ⟨r, hr⟩ := ih fun p hp => hlive p (List.mem_cons_of_mem _ hp)
    refine ⟨(k, n.value) :: r, ?_⟩
    rw [List.mapM_cons, hr]
    simp [Arena.value?, Arena.live?, hn, bind, Except.bind, pure, Except.pure, Functor.map,
      Except.map]

end Lru

end RecencyMap
