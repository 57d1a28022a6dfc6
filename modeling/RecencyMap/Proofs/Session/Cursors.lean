import RecencyMap.Proofs.Session.Runs

/-!
# What a step does to a named cursor

A cursor lives under a name. A step that does not name it leaves it there
(`keeps_lookup_perform`); a step that names it makes a new cursor there, touches it, moves it,
or removes its entry through it. Run from a good session, each does what the documentation of
a cursor says:

* a new cursor is fresh: minted and stamped with the generation of the map it is made on, at
  a live slot (`Good.step_creates`);
* a touch through a cursor at a live slot moves its entry to the front, which is one change,
  stamps the cursor with the generation after it and leaves what every slot holds
  (`Good.step_touch_live`);
* a move keeps the map, the generations a cursor was minted and stamped at, and the liveness
  of its slot (`Good.step_move`);
* a removal through a cursor at a live slot clears its name (`Good.step_consume_live`);
* a touch or a removal through a name that holds no cursor at a live slot changes nothing.
-/

namespace RecencyMap

/-- A cursor fresh from `m`: minted and stamped with its generation, at a live slot. -/
structure Cursor.Fresh {ι κ ν : Type} (m : Lru ι κ ν) (cur : Cursor) : Prop where
  minted_eq : cur.minted = m.generation
  stamp_eq : cur.stamp = m.generation
  live : m.arena.live cur.slot = true

theorem Lru.fresh_cursorAt {ι κ ν : Type} [KeyIndex ι κ] (m : Lru ι κ ν) {x : Slot}
    (hx : m.arena.live x = true) : (m.cursorAt x).Fresh m :=
  ⟨rfl, rfl, hx⟩

/-- What the slot `x` of a map holds: the key and value of a live slot, nothing at a dead one. -/
def Lru.contents {ι κ ν : Type} (m : Lru ι κ ν) (x : Slot) : Option (κ × ν) :=
  (m.arena.node? x).map fun n => (n.key, n.value)

namespace Lru

variable {κ ν : Type} [BEq κ] [Hashable κ] {m m' : Lru (SomeIndex κ) κ ν}

/-- A live slot holds the key and value of its entry. -/
theorem Consistent.contents_of_mem (hc : m.Consistent) {e : Recency.Entry κ ν}
    (he : e ∈ m.arena.view.entries) : m.contents e.slot = some e.pair := by
  obtain ⟨order, h⟩ := hc.shape
  have hfind := Recency.find?_of_mem h.view_nodup he
  rw [h.view_find?] at hfind
  obtain ⟨n, hn, hne⟩ := Option.map_eq_some_iff.mp hfind
  rw [contents, hn, ← hne]
  rfl

/-- A dead slot holds nothing. -/
theorem Consistent.contents_of_not_mem (hc : m.Consistent) {x : Slot}
    (hx : x ∉ m.arena.view.slots) : m.contents x = none := by
  obtain ⟨order, h⟩ := hc.shape
  rw [h.view_slots] at hx
  simp [contents, h.node?_eq_none_of_not_mem hx]

/-- Two consistent maps whose entries sit in the same slots with the same keys and values hold
the same in every slot, whatever their order and stamps. -/
theorem Consistent.contents_eq (hc : m.Consistent) (hc' : m'.Consistent)
    (hfwd : ∀ e' ∈ m'.arena.view.entries, ∃ e ∈ m.arena.view.entries,
      e.slot = e'.slot ∧ e.pair = e'.pair)
    (hback : ∀ e ∈ m.arena.view.entries, ∃ e' ∈ m'.arena.view.entries, e'.slot = e.slot) :
    m'.contents = m.contents := by
  funext x
  by_cases hx : x ∈ m'.arena.view.slots
  · obtain ⟨e', he', rfl⟩ := List.mem_map.mp hx
    obtain ⟨e, he, hslot, hpair⟩ := hfwd e' he'
    rw [hc'.contents_of_mem he', ← hslot, hc.contents_of_mem he, hpair]
  · have hx' : x ∉ m.arena.view.slots := fun hm => by
      obtain ⟨e, he, rfl⟩ := List.mem_map.mp hm
      obtain ⟨e', he', hslot⟩ := hback e he
      exact hx (List.mem_map.mpr ⟨e', he', hslot⟩)
    rw [hc'.contents_of_not_mem hx, hc.contents_of_not_mem hx']

/-- Moving an entry to the front leaves what every slot holds. -/
theorem Consistent.contents_move (hc : m.Consistent) (hc' : m'.Consistent)
    {e : Recency.Entry κ ν} (he : e ∈ m.arena.view.entries) (g : Nat)
    (hes : m'.arena.view.entries =
      { e with seq := g } :: m.arena.view.entries.filter fun x => x.slot != e.slot) :
    m'.contents = m.contents := by
  refine hc.contents_eq hc' (fun e' he' => ?_) (fun f hf => ?_)
  · rw [hes] at he'
    rcases List.mem_cons.mp he' with rfl | he'
    · exact ⟨e, he, rfl, rfl⟩
    · exact ⟨e', (Recency.mem_others.mp he').1, rfl, rfl⟩
  · rw [hes]
    by_cases hfe : f.slot = e.slot
    · exact ⟨_, List.mem_cons_self, hfe.symm⟩
    · exact ⟨f, List.mem_cons_of_mem _ (Recency.mem_others.mpr ⟨hf, hfe⟩), rfl⟩

/-- The neighbour a removal hands on is live in the map it leaves. -/
theorem Consistent.live_neighbour (hc : m.Consistent) (hc' : m'.Consistent)
    {e : Recency.Entry κ ν} (hes : m'.arena.view.entries =
      m.arena.view.entries.filter fun x => x.slot != e.slot)
    (towardsTail : Bool) {n : Slot}
    (hn : (if towardsTail then nextIn m.arena.view.slots e.slot
      else prevIn m.arena.view.slots e.slot) = some n) :
    m'.arena.live n = true := by
  have hmem : n ∈ m.arena.view.slots ∧ n ≠ e.slot := by
    cases towardsTail
    · exact prevIn_mem_ne hc.describes.nodup hn
    · exact nextIn_mem_ne hc.describes.nodup hn
  obtain ⟨f, hf, rfl⟩ := List.mem_map.mp hmem.1
  apply hc'.live_of_mem
  rw [hes]
  exact Recency.mem_others.mpr ⟨hf, hmem.2⟩

/-- A move that answers keeps when the cursor was minted and stamped, and lands on a live
slot. -/
theorem Consistent.move_ok (hc : m.Consistent) {cur cur' : Cursor} {b towardsTail : Bool}
    (h : (if towardsTail then cur.moveNext m else cur.movePrev m) = .ok (b, cur')) :
    cur'.minted = cur.minted ∧ cur'.stamp = cur.stamp ∧ m.arena.live cur'.slot = true := by
  obtain ⟨order, hshape⟩ := hc.shape
  -- the link read is the abstract neighbour, an entry of the sequence
  cases towardsTail with
  | true =>
    cases hn : m.arena.next? cur.slot with
    | error e => simp [Cursor.moveNext, Cursor.onSlot, hn, Except.mapError, bind,
        Except.bind] at h
    | ok o =>
      have hview : m.arena.view.next? cur.slot = .ok o := by rw [hshape.view_next?, hn]
      obtain ⟨x, hx, hox⟩ := Arena.ok_of_view hview
      have hlive : m.arena.live cur.slot = true := by
        rw [← hshape.view_live]
        simp [Recency.live, Recency.entry] at hx ⊢
        split at hx <;> simp_all
      cases o with
      | none =>
        simp [Cursor.moveNext, Cursor.onSlot, hn, Except.mapError, bind, Except.bind, pure,
          Except.pure] at h
        obtain ⟨-, rfl⟩ := h
        exact ⟨rfl, rfl, hlive⟩
      | some n =>
        simp [Cursor.moveNext, Cursor.onSlot, hn, Except.mapError, bind, Except.bind, pure,
          Except.pure] at h
        obtain ⟨-, rfl⟩ := h
        obtain ⟨f, hf, rfl⟩ := List.mem_map.mp (nextIn_mem_ne hc.describes.nodup hox).1
        exact ⟨rfl, rfl, hc.live_of_mem hf⟩
  | false =>
    cases hp : m.arena.prev? cur.slot with
    | error e => simp [Cursor.movePrev, Cursor.onSlot, hp, Except.mapError, bind,
        Except.bind] at h
    | ok o =>
      have hview : m.arena.view.prev? cur.slot = .ok o := by rw [hshape.view_prev?, hp]
      obtain ⟨x, hx, hox⟩ := Arena.ok_of_view hview
      have hlive : m.arena.live cur.slot = true := by
        rw [← hshape.view_live]
        simp [Recency.live, Recency.entry] at hx ⊢
        split at hx <;> simp_all
      cases o with
      | none =>
        simp [Cursor.movePrev, Cursor.onSlot, hp, Except.mapError, bind, Except.bind, pure,
          Except.pure] at h
        obtain ⟨-, rfl⟩ := h
        exact ⟨rfl, rfl, hlive⟩
      | some n =>
        simp [Cursor.movePrev, Cursor.onSlot, hp, Except.mapError, bind, Except.bind, pure,
          Except.pure] at h
        obtain ⟨-, rfl⟩ := h
        obtain ⟨f, hf, rfl⟩ := List.mem_map.mp (prevIn_mem_ne hc.describes.nodup hox).1
        exact ⟨rfl, rfl, hc.live_of_mem hf⟩

end Lru

namespace MapStep

variable {κ : Type}

/-- Whether a step makes a new cursor under `c`: a cursor at a key, the head, the tail or the
most recent entry of a range, or the heir of a removal. -/
def creates (c : String) : MapStep κ → Bool
  | .entry _ c' | .headEntry c' | .tailEntry c' | .mostRecent _ c'
  | .mostRecentWhere _ _ _ c' => c' == c
  | .cTakeNext _ heir | .cTakePrev _ heir | .cRemoveNext _ heir | .cRemovePrev _ heir =>
    heir == c
  | _ => false

/-- Whether a step touches or moves the cursor under `c`. -/
def steers (c : String) : MapStep κ → Bool
  | .cTouch c' | .cMoveNext c' | .cMovePrev c' => c' == c
  | _ => false

/-- Whether a step removes the entry under the cursor named `c`, consuming the cursor. -/
def consumes (c : String) : MapStep κ → Bool
  | .cTake c' | .cTakeNext c' _ | .cTakePrev c' _ | .cRemoveNext c' _ | .cRemovePrev c' _ =>
    c' == c
  | _ => false

/-- The removal a step makes through a cursor: the name it removes through, the name of the
heir and whether the heir is the neighbour towards the tail. -/
def removal? : MapStep κ → Option (String × Option String × Bool)
  | .cTake c => some (c, none, true)
  | .cTakeNext c heir => some (c, some heir, true)
  | .cTakePrev c heir => some (c, some heir, false)
  | .cRemoveNext c heir => some (c, some heir, true)
  | .cRemovePrev c heir => some (c, some heir, false)
  | _ => none

theorem consumes_iff (st : MapStep κ) (c : String) :
    st.consumes c = true ↔ ∃ heir towardsTail, st.removal? = some (c, heir, towardsTail) := by
  cases st <;> simp [consumes, removal?]

/-- A removal that hands its neighbour on under `heir` makes a cursor there. -/
theorem creates_of_removal {st : MapStep κ} {c heir : String} {towardsTail : Bool}
    (h : st.removal? = some (c, some heir, towardsTail)) : st.creates heir = true := by
  cases st <;> simp_all [removal?, creates]

/-- A step that steers `c` touches it or moves it. -/
theorem eq_of_steers {st : MapStep κ} {c : String} (h : st.steers c = true) :
    st = .cTouch c ∨ st = .cMoveNext c ∨ st = .cMovePrev c := by
  cases st <;> simp_all [steers]

/-- A step names `c` exactly when it makes a new cursor there, steers the one there or
consumes it. -/
theorem mem_names (st : MapStep κ) (c : String) :
    c ∈ st.names ↔ st.creates c = true ∨ st.steers c = true ∨ st.consumes c = true := by
  cases st <;> simp only [names, creates, steers, consumes, List.mem_cons, List.not_mem_nil,
    beq_iff_eq, Bool.false_eq_true] <;> grind

end MapStep

namespace Session

variable {κ : Type} [BEq κ] [Hashable κ]

/-! ## Storing under a name -/

omit [BEq κ] [Hashable κ] in
/-- Storing under a name, then reading that name, finds what was stored. -/
theorem lookup_store_self (cs : List (String × Cursor)) (name : String) (cur : Option Cursor) :
    (match cur with
      | some cur => (name, cur) :: cs.filter (·.1 != name)
      | none => cs.filter (·.1 != name)).lookup name = cur := by
  have hfilter : (cs.filter (·.1 != name)).lookup name = none := by
    induction cs with
    | nil => rfl
    | cons p cs ih =>
      obtain ⟨n, x⟩ := p
      by_cases hn : n = name
      · subst hn
        simpa using ih
      · have hnn : (n != name) = true := by simpa using hn
        have hne : (name == n) = false := by simpa using Ne.symm hn
        simp only [List.filter_cons, hnn, if_true, List.lookup, hne]
        exact ih
  cases cur with
  | none => exact hfilter
  | some cur => simp [List.lookup]

/-- Making a cursor under a name leaves the session as storing it does, whatever the reads of
its entry after the store answer. -/
theorem exec_storeEntry (s : Session κ) (name : String) (c : Option Cursor) :
    (exec (storeEntry name c) s).2 = (exec (setCursor name c) s).2 := by
  unfold storeEntry
  rw [exec_bind]
  simp only [exec_setCursor]
  cases c with
  | none => rfl
  | some cur =>
    simp only [exec_bind, exec_get, exec_onCursor]
    split <;> (try split) <;> rfl

/-- Every cursor the name `c` holds is fresh from the session's map. -/
def HoldsFresh (u : Session κ) (c : String) : Prop :=
  ∀ cur, u.cursors.lookup c = some cur → cur.Fresh u.map

/-! ## Making a cursor -/

section Creation

variable {s : Session κ}

/-- Storing a cursor at a live slot of the map, or none, under `name` leaves a fresh one there. -/
theorem holdsFresh_storeEntry (name : String) {o : Option Slot}
    (ho : ∀ x, o = some x → s.map.arena.live x = true) :
    (exec (storeEntry name (o.map s.map.cursorAt)) s).2.HoldsFresh name := by
  intro cur hcur
  rw [exec_storeEntry, exec_setCursor] at hcur ⊢
  have hstored := (lookup_store_self s.cursors name (o.map s.map.cursorAt)).symm.trans hcur
  obtain ⟨x, hx, rfl⟩ := Option.map_eq_some_iff.mp hstored
  exact s.map.fresh_cursorAt (ho x hx)

/-- A cursor at the most recent entry of a range is fresh, unless the range cannot be scanned. -/
theorem Good.exec_mostRecentBy (hs : s.Good) (r : KeyRange κ) (cond : κ → String → Bool)
    (c : String) :
    (∃ e, exec (mostRecentBy r cond c) s = (.error e, s)) ∨
      (exec (mostRecentBy r cond c) s).2.HoldsFresh c := by
  cases hscan : s.map.index.scan? r with
  | none => exact Or.inl ⟨"range query on a hashed map", by simp [mostRecentBy, scanOf, hscan]⟩
  | some entries =>
    obtain ⟨best, hbest, hlive⟩ :=
      Lru.mostRecentAmong_live cond (hs.consistent.scan_live hscan)
    right
    have hrun : exec (mostRecentBy r cond c) s = exec (storeEntry c (best.map s.map.cursorAt)) s := by
      simp [mostRecentBy, exec_scanOf hscan, hbest, Except.mapError]
    rw [hrun]
    exact holdsFresh_storeEntry c hlive

end Creation

/-! ## Touching, moving and removing through a cursor -/

section Own

variable {s : Session κ} {c : String}

/-- Removing through a name that holds no cursor at a live slot faults and changes nothing. -/
theorem Good.exec_takeAt_dead (hs : s.Good) (hk : s.heldKey c = none) (heir : Option String)
    (towardsTail : Bool) : ∃ e, exec (takeAt c heir towardsTail) s = (.error e, s) := by
  rcases hs.cursor_cases c with ⟨hl, -⟩ | ⟨cur, hl, hdead, -⟩ | ⟨cur, e, -, -, -, hk'⟩
  · exact ⟨CursorFault.consumed.message, by simp [takeAt, hl, Cursor.held?, Except.mapError]⟩
  · exact ⟨(CursorFault.slot (.deadSlot .remove cur.slot)).message,
      by simp [takeAt, hl, Cursor.held?, take_dead hdead, Except.mapError]⟩
  · rw [hk] at hk'
    cases hk'

/-- Removing through a cursor at an entry clears its name, unless the heir takes it, and
leaves a fresh cursor, or none, under the heir's. -/
theorem Good.exec_takeAt_live (hs : s.Good) {cur : Cursor} (hl : s.cursors.lookup c = some cur)
    {e : Recency.Entry κ String} (he : e ∈ s.map.arena.view.entries) (hslot : e.slot = cur.slot)
    (heir : Option String) (towardsTail : Bool) :
    (heir ≠ some c → (exec (takeAt c heir towardsTail) s).2.cursors.lookup c = none) ∧
      ∀ name, heir = some name → (exec (takeAt c heir towardsTail) s).2.HoldsFresh name := by
  obtain ⟨m', htake, hperf, hes⟩ :=
    hs.consistent.cursor_take_performs he cur hslot.symm towardsTail
  have hlive : ∀ n, (if towardsTail then nextIn s.map.arena.view.slots e.slot
      else prevIn s.map.arena.view.slots e.slot) = some n → m'.arena.live n = true :=
    fun _ hn => hs.consistent.live_neighbour hperf.consistent hes towardsTail hn
  have hcleared := lookup_store_self s.cursors c none
  cases heir with
  | none =>
    refine ⟨fun _ => ?_, fun _ h => by cases h⟩
    simp only [takeAt, exec_bind, exec_held, hl, Cursor.held?, exec_get, exec_onCursor, htake,
      Except.mapError, exec_modify, exec_observe, exec_setCursor, exec_pure]
    exact hcleared
  | some name =>
    refine ⟨fun hne => ?_, fun name' h => ?_⟩
    · have hother := @lookup_store_other (s.cursors.filter (·.1 != c)) name c
        (fun h : name = c => hne (by rw [h])) ((if towardsTail then
          nextIn s.map.arena.view.slots e.slot else prevIn s.map.arena.view.slots e.slot).map
            m'.cursorAt)
      simp only [takeAt, exec_bind, exec_held, hl, Cursor.held?, exec_get, exec_onCursor, htake,
        Except.mapError, exec_modify, exec_observe, exec_setCursor, exec_pure]
      exact hother.trans hcleared
    · cases h
      intro cur' hcur'
      simp only [takeAt, exec_bind, exec_held, hl, Cursor.held?, exec_get, exec_onCursor, htake,
        Except.mapError, exec_modify, exec_observe, exec_setCursor, exec_pure] at hcur' ⊢
      have hstored := (lookup_store_self (s.cursors.filter (·.1 != c)) name _).symm.trans hcur'
      obtain ⟨x, hx, rfl⟩ := Option.map_eq_some_iff.mp hstored
      exact m'.fresh_cursorAt (hlive x hx)

/-- Touching through a name that holds no cursor at a live slot faults and changes nothing. -/
theorem Good.exec_cTouch_dead [ToString κ] (hs : s.Good) (hk : s.heldKey c = none) :
    ∃ e, exec (perform (.cTouch c)) s = (.error e, s) := by
  rcases hs.cursor_cases c with ⟨hl, -⟩ | ⟨cur, hl, hdead, -⟩ | ⟨cur, e, -, -, -, hk'⟩
  · exact ⟨CursorFault.consumed.message, by simp [perform, hl, Cursor.held?, Except.mapError]⟩
  · exact ⟨(CursorFault.slot (.deadSlot .moveToHead cur.slot)).message,
      by simp [perform, hl, Cursor.held?, touch_dead hdead, Except.mapError]⟩
  · rw [hk] at hk'
    cases hk'

/-- Touching through a cursor at an entry moves the entry to the front, leaves what every slot
holds, and stamps the cursor with the generation after the move. -/
theorem Good.exec_cTouch_live [ToString κ] (hs : s.Good) {cur : Cursor}
    (hl : s.cursors.lookup c = some cur) {e : Recency.Entry κ String}
    (he : e ∈ s.map.arena.view.entries) (hslot : e.slot = cur.slot) :
    ∃ m', s.map.Performs (.touch e.key) m' ∧ m'.contents = s.map.contents ∧
      (exec (perform (.cTouch c)) s).2.map = m' ∧
      (exec (perform (.cTouch c)) s).2.cursors.lookup c = some { cur with stamp := m'.generation } := by
  obtain ⟨m', htouch, hperf, hes⟩ := hs.consistent.touch_performs he cur hslot.symm
  refine ⟨m', hperf, hs.consistent.contents_move hperf.consistent he _ hes, ?_, ?_⟩
  · simp [perform, hl, Cursor.held?, htouch, Except.mapError]
  · simp [perform, hl, Cursor.held?, htouch, Except.mapError]

/-- A move through a name keeps the map, keeps a missing cursor missing, and keeps when a held
cursor was minted and stamped, landing on a live slot when it stood on one. -/
theorem Good.exec_moveBy [ToString κ] (hs : s.Good) (towardsTail : Bool) :
    (exec (perform.moveBy c towardsTail) s).2.map = s.map ∧
      (s.cursors.lookup c = none → (exec (perform.moveBy c towardsTail) s).2.cursors.lookup c = none) ∧
      ∀ cur, s.cursors.lookup c = some cur → ∃ cur',
        (exec (perform.moveBy c towardsTail) s).2.cursors.lookup c = some cur' ∧
        cur'.minted = cur.minted ∧ cur'.stamp = cur.stamp ∧
        (s.map.arena.live cur.slot = true → s.map.arena.live cur'.slot = true) := by
  refine ⟨?_, fun hl => ?_, fun cur hl => ?_⟩
  · have hside := keeps_mapSide_perform (.cMoveNext c) rfl s
    have hside' := keeps_mapSide_perform (.cMovePrev c) rfl s
    cases towardsTail
    · exact congrArg (fun p => p.2.1) hside'
    · exact congrArg (fun p => p.2.1) hside
  · simp [perform.moveBy, hl, Cursor.held?, Except.mapError]
  · cases hmove : (if towardsTail then cur.moveNext s.map else cur.movePrev s.map) with
    | error e =>
      refine ⟨cur, ?_, rfl, rfl, id⟩
      simp [perform.moveBy, hl, Cursor.held?, hmove, Except.mapError]
    | ok p =>
      obtain ⟨b, cur'⟩ := p
      obtain ⟨hminted, hstamp, hlive⟩ := hs.consistent.move_ok hmove
      refine ⟨cur', ?_, hminted, hstamp, fun _ => hlive⟩
      simp [perform.moveBy, hl, Cursor.held?, hmove, Except.mapError]

end Own

/-! ## One step -/

section Step

variable [ToString κ] {s t : Session κ} {listKeys : Bool} {st : MapStep κ}
  {rep : StepReport κ} {c : String}

/-- A removal step runs `takeAt` and answers from what it hands back: it leaves what `takeAt`
leaves, and answers only when `takeAt` does. -/
theorem exec_perform_removal {c : String} {heir : Option String} {towardsTail : Bool}
    (hst : st.removal? = some (c, heir, towardsTail)) (u : Session κ) :
    (exec (perform st) u).2 = (exec (takeAt c heir towardsTail) u).2 ∧
      ∀ a, (exec (perform st) u).1 = .ok a →
        ∃ b, (exec (takeAt c heir towardsTail) u).1 = .ok b := by
  cases st <;> simp only [MapStep.removal?, Option.some.injEq, Prod.mk.injEq, reduceCtorEq]
    at hst
  all_goals
    obtain ⟨rfl, rfl, rfl⟩ := hst
    simp only [perform, perform.takeReply, exec_bind]
    constructor
    · split <;> rfl
    · intro a ha
      split at ha
      · next b hb => exact ⟨b, hb⟩
      · cases ha

theorem step_lookup_of_not_mem (h : s.step listKeys st = .ok (rep, t)) (hc : c ∉ st.names) :
    t.cursors.lookup c = s.cursors.lookup c := by
  rw [(step_eq_ok h).1]
  exact keeps_lookup_perform st hc _

/-- A step that makes no change leaves the map. -/
theorem Good.step_map_of_changes (hs : s.Good) (h : s.step listKeys st = .ok (rep, t))
    (hch : (s.opsOf st).flatMap MapOp.changes = []) : t.map = s.map :=
  (hs.step_does h).1.eq_of_changes hch

/-- A step that only reads the map leaves it. -/
theorem step_map_of_reads (h : s.step listKeys st = .ok (rep, t)) (hst : st.mutates = false) :
    t.map = s.map := by
  rw [(step_eq_ok h).1]
  exact congrArg (fun p => p.2.1) (keeps_mapSide_perform st hst _)

/-- A step raises the generation by the changes of its operations. -/
theorem Good.step_generation (hs : s.Good) (h : s.step listKeys st = .ok (rep, t)) :
    t.map.generation = s.map.generation + ((s.opsOf st).flatMap MapOp.changes).length :=
  (hs.step_does h).1.generation_eq

/-- Touching through a cursor at a live slot is one change: the entry comes to the front, every
slot holds what it held, and the cursor is stamped with the generation after the change. -/
theorem Good.step_touch_live (hs : s.Good) (h : s.step listKeys (.cTouch c) = .ok (rep, t))
    {cur : Cursor} (hl : s.cursors.lookup c = some cur)
    (hlive : s.map.arena.live cur.slot = true) :
    t.map.generation = s.map.generation + 1 ∧ t.map.contents = s.map.contents ∧
      t.cursors.lookup c = some { cur with stamp := t.map.generation } := by
  obtain ⟨e, he, hslot⟩ := hs.consistent.mem_of_live hlive
  have hu : ({ s with events := #[] } : Session κ).Good := hs.of_eq rfl rfl
  obtain ⟨m', hperf, hcont, hmap, hcur⟩ := hu.exec_cTouch_live hl he hslot
  rw [(step_eq_ok h).1, hmap]
  exact ⟨by rw [hperf.generation_eq]; rfl, hcont, hcur⟩

/-- Touching through a name that holds no cursor at a live slot changes nothing. -/
theorem Good.step_touch_dead (hs : s.Good) (h : s.step listKeys (.cTouch c) = .ok (rep, t))
    (hk : s.heldKey c = none) : t.map = s.map ∧ t.cursors = s.cursors := by
  have hu : ({ s with events := #[] } : Session κ).Good := hs.of_eq rfl rfl
  obtain ⟨e, hrun⟩ := hu.exec_cTouch_dead hk
  rw [(step_eq_ok h).1, hrun]
  exact ⟨rfl, rfl⟩

/-- A move keeps the map, keeps a missing cursor missing, and keeps when a held cursor was
minted and stamped, landing on a live slot when it stood on one. -/
theorem Good.step_move (hs : s.Good) (h : s.step listKeys st = .ok (rep, t))
    (hst : st = .cMoveNext c ∨ st = .cMovePrev c) :
    t.map = s.map ∧ (s.cursors.lookup c = none → t.cursors.lookup c = none) ∧
      ∀ cur, s.cursors.lookup c = some cur → ∃ cur', t.cursors.lookup c = some cur' ∧
        cur'.minted = cur.minted ∧ cur'.stamp = cur.stamp ∧
        (s.map.arena.live cur.slot = true → t.map.arena.live cur'.slot = true) := by
  have hu : ({ s with events := #[] } : Session κ).Good := hs.of_eq rfl rfl
  obtain ⟨towardsTail, hp⟩ : ∃ towardsTail, perform st = perform.moveBy c towardsTail := by
    rcases hst with rfl | rfl
    exacts [⟨true, rfl⟩, ⟨false, rfl⟩]
  obtain ⟨hmap, hnone, hsome⟩ := hu.exec_moveBy (c := c) towardsTail
  rw [(step_eq_ok h).1, hp, hmap]
  exact ⟨rfl, hnone, hsome⟩

/-- A removal through a cursor at a live slot clears its name, unless the heir takes it; through
a name that holds no cursor at a live slot it changes nothing. -/
theorem Good.step_consume (hs : s.Good) (h : s.step listKeys st = .ok (rep, t))
    {heir : Option String} {towardsTail : Bool}
    (hst : st.removal? = some (c, heir, towardsTail)) :
    (s.heldKey c ≠ none → heir ≠ some c → t.cursors.lookup c = none) ∧
      (s.heldKey c = none → t.map = s.map ∧ t.cursors = s.cursors) := by
  have hu : ({ s with events := #[] } : Session κ).Good := hs.of_eq rfl rfl
  have ht : t = (exec (takeAt c heir towardsTail) { s with events := #[] }).2 :=
    (step_eq_ok h).1.trans (exec_perform_removal hst _).1
  refine ⟨fun hk hne => ?_, fun hk => ?_⟩
  · rcases hs.cursor_cases c with ⟨-, hk'⟩ | ⟨-, -, -, hk'⟩ | ⟨cur, e, he, hl, hslot, -⟩
    · exact absurd hk' hk
    · exact absurd hk' hk
    · rw [ht]
      exact (hu.exec_takeAt_live hl he hslot heir towardsTail).1 hne
  · obtain ⟨e, hrun⟩ := hu.exec_takeAt_dead hk heir towardsTail
    rw [ht, hrun]
    exact ⟨rfl, rfl⟩

/-- A step whose body faults before changing anything leaves the map and the cursors, and
replies with the fault. -/
theorem step_of_fault (h : s.step listKeys st = .ok (rep, t)) {e : String}
    (hans : (exec (perform st) { s with events := #[] }).1 = .error e)
    (hstate : (exec (perform st) { s with events := #[] }).2 = { s with events := #[] }) :
    t.map = s.map ∧ t.cursors = s.cursors ∧ ¬ Calm rep.reply := by
  obtain ⟨ht, hrep⟩ := step_eq_ok h
  rw [hans] at hrep
  rw [ht, hstate]
  exact ⟨rfl, rfl, by simp [Calm, hrep, Reply.isPanic]⟩

/-- A step that makes a cursor under `c` leaves a fresh cursor there, or none; or it faults
before changing anything. -/
theorem Good.step_creates (hs : s.Good) (h : s.step listKeys st = .ok (rep, t))
    (hst : st.creates c = true) :
    t.HoldsFresh c ∨ (t.map = s.map ∧ t.cursors = s.cursors ∧ ¬ Calm rep.reply) := by
  have hu : ({ s with events := #[] } : Session κ).Good := hs.of_eq rfl rfl
  have ht : t = (exec (perform st) { s with events := #[] }).2 := (step_eq_ok h).1
  -- a removal that hands its neighbour on under `c`
  have hheir : ∀ a' towardsTail, st.removal? = some (a', some c, towardsTail) →
      t.HoldsFresh c ∨ (t.map = s.map ∧ t.cursors = s.cursors ∧ ¬ Calm rep.reply) := by
    intro a' towardsTail hrem
    obtain ⟨hstate, hok⟩ := exec_perform_removal hrem { s with events := #[] }
    -- through a name that holds no cursor at a live slot, the removal faults at once
    have hdead : s.heldKey a' = none →
        t.HoldsFresh c ∨ (t.map = s.map ∧ t.cursors = s.cursors ∧ ¬ Calm rep.reply) := by
      intro hk
      obtain ⟨e, hrun⟩ := hu.exec_takeAt_dead hk (some c) towardsTail
      cases hans : (exec (perform st) { s with events := #[] }).1 with
      | ok a =>
        obtain ⟨b, hb⟩ := hok a hans
        rw [hrun] at hb
        cases hb
      | error e' => exact Or.inr (step_of_fault h hans (by rw [hstate, hrun]))
    rcases hs.cursor_cases a' with ⟨-, hk⟩ | ⟨-, -, -, hk⟩ | ⟨cur, e, he, hl, hslot, -⟩
    · exact hdead hk
    · exact hdead hk
    · rw [ht, hstate]
      exact Or.inl ((hu.exec_takeAt_live hl he hslot (some c) towardsTail).2 c rfl)
  -- a cursor at the most recent entry of a range
  have hrange : ∀ r cond, (exec (perform st) { s with events := #[] }).2 =
      (exec (mostRecentBy r cond c) { s with events := #[] }).2 →
      (∀ e u, exec (mostRecentBy r cond c) { s with events := #[] } = (.error e, u) →
        (exec (perform st) { s with events := #[] }).1 = .error e) →
      t.HoldsFresh c ∨ (t.map = s.map ∧ t.cursors = s.cursors ∧ ¬ Calm rep.reply) := by
    intro r cond hstate herr
    rcases hu.exec_mostRecentBy r cond c with ⟨e, he⟩ | hfresh
    · exact Or.inr (step_of_fault h (herr e _ he) (by rw [hstate, he]))
    · rw [ht, hstate]
      exact Or.inl hfresh
  cases st with
  | entry k c' | headEntry c' | tailEntry c' =>
    obtain rfl : c' = c := by simpa [MapStep.creates] using hst
    left
    rw [ht]
    simp only [perform, exec_bind, exec_get]
    first
    | exact holdsFresh_storeEntry c' fun x hx => hu.consistent.live_of_find? hx
    | exact holdsFresh_storeEntry c' fun x hx => hu.consistent.live_of_head hx
    | exact holdsFresh_storeEntry c' fun x hx => hu.consistent.live_of_tail hx
  | mostRecent r c' =>
    obtain rfl : c' = c := by simpa [MapStep.creates] using hst
    exact hrange r _ rfl fun e u he => by simp only [perform, he]
  | mostRecentWhere r valueIn keyNotIn c' =>
    obtain rfl : c' = c := by simpa [MapStep.creates] using hst
    cases hscan : ({ s with events := #[] } : Session κ).map.index.scan? r with
    | none =>
      right
      exact step_of_fault h (e := "range query on a hashed map")
        (by simp [perform, scanOf, hscan]) (by simp [perform, scanOf, hscan])
    | some entries =>
      refine hrange r (fun k v => valueIn.all (·.contains v) && !keyNotIn.contains k) ?_
        fun e u he => ?_
      · simp only [perform, exec_bind, exec_scanOf hscan]
        split <;> (try split) <;> rfl
      · simp only [perform, exec_bind, exec_scanOf hscan, he]
  | cTakeNext a' heir | cTakePrev a' heir | cRemoveNext a' heir | cRemovePrev a' heir =>
    obtain rfl : heir = c := by simpa [MapStep.creates] using hst
    exact hheir a' _ rfl
  | _ => simp [MapStep.creates] at hst

/-- A step that makes a cursor under `c` and answers without a fault leaves a fresh cursor
there, or none. -/
theorem Good.step_creates_calm (hs : s.Good) (h : s.step listKeys st = .ok (rep, t))
    (hst : st.creates c = true) (hcalm : Calm rep.reply) : t.HoldsFresh c :=
  (hs.step_creates h hst).resolve_right fun hfault => hfault.2.2 hcalm

/-- A step that steers `c` keeps a missing cursor missing, and keeps a held one there, minted
when it was, with its stamp as it was or the generation after the step. -/
theorem Good.step_steers (hs : s.Good) (h : s.step listKeys st = .ok (rep, t))
    (hst : st.steers c = true) :
    (s.cursors.lookup c = none → t.cursors.lookup c = none) ∧
      ∀ cur, s.cursors.lookup c = some cur → ∃ cur', t.cursors.lookup c = some cur' ∧
        cur'.minted = cur.minted ∧ (cur'.stamp = cur.stamp ∨ cur'.stamp = t.map.generation) := by
  rcases MapStep.eq_of_steers hst with rfl | rfl | rfl
  · -- a touch stamps a cursor at a live slot and faults on any other
    refine ⟨fun hl => ?_, fun cur hl => ?_⟩
    · have hk : s.heldKey c = none := by simp [heldKey, hl]
      rw [(hs.step_touch_dead h hk).2, hl]
    · rcases hs.cursor_cases c with ⟨hl', -⟩ | ⟨cur', hl', -, hk⟩ | ⟨cur', e, he, hl', hslot, -⟩
      · rw [hl] at hl'
        cases hl'
      · exact ⟨cur, by rw [(hs.step_touch_dead h hk).2, hl], rfl, Or.inl rfl⟩
      · rw [hl] at hl'
        cases hl'
        have hlive : s.map.arena.live cur.slot = true := hslot ▸ hs.consistent.live_of_mem he
        obtain ⟨-, -, hcur⟩ := hs.step_touch_live h hl hlive
        exact ⟨_, hcur, rfl, Or.inr rfl⟩
  all_goals
    obtain ⟨-, hnone, hsome⟩ := hs.step_move (c := c) h (by simp)
    refine ⟨hnone, fun cur hl => ?_⟩
    obtain ⟨cur', hcur', hminted, hstamp, -⟩ := hsome cur hl
    exact ⟨cur', hcur', hminted, Or.inl hstamp⟩

end Step

end Session

end RecencyMap
