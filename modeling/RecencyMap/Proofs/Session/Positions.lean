import RecencyMap.Proofs.Session.Cursors
import RecencyMap.Proofs.Session.Traversal

/-!
# Cursor calls at a position of the recency list

A cursor stands at a slot, and a live slot holds one entry of the map's recency list, in some
position `i`. Every call through the cursor acts on the list at that position: reading gives
the entry in position `i`; moving goes to the entry in position `i + 1` or `i - 1` when there
is one and stays otherwise; touching brings the entry to the front, the cursor with it;
removing takes the entry out of the list and out of the index, and hands a fresh cursor to the
entry that stood after it or before it.

A cursor that a removal consumed answers every call but `Valid` with the fault of a consumed
cursor and leaves the map as it was; `Valid` answers false.
-/

namespace RecencyMap

/-! ## Positions in a list of distinct elements -/

section Positions

variable {α β : Type}

/-- The element after position `i` (`towardsTail`) or before it, if there is one. -/
def neighbourAt (l : List α) (i : Nat) : Bool → Option α
  | true => l[i + 1]?
  | false => match i with
    | 0 => none
    | j + 1 => l[j]?

/-- A list is its part before position `i`, its element there and its part after. -/
theorem eq_take_cons_drop {l : List α} {i : Nat} {x : α} (hi : l[i]? = some x) :
    l = l.take i ++ x :: l.drop (i + 1) := by
  obtain ⟨hlt, rfl⟩ := List.getElem?_eq_some_iff.1 hi
  rw [← List.drop_eq_getElem_cons hlt, List.take_append_drop]

/-- In a list whose images under `f` are distinct, dropping every element with the image of
the one in position `i` erases position `i`. -/
theorem filter_ne_eq_eraseIdx [BEq β] [LawfulBEq β] (f : α → β) {l : List α} (hl : (l.map f).Nodup)
    {i : Nat} {x : α} (hi : l[i]? = some x) :
    l.filter (fun y => f y != f x) = l.eraseIdx i := by
  induction l generalizing i with
  | nil => simp at hi
  | cons y l ih =>
    rw [List.map_cons, List.nodup_cons] at hl
    -- no element after the head has the head's image
    have hrest : ∀ z ∈ l, f z ≠ f y := fun z hz h => hl.1 (h ▸ List.mem_map_of_mem hz)
    cases i with
    | zero =>
      obtain rfl : y = x := by simpa using hi
      simpa [List.filter_eq_self] using hrest
    | succ j =>
      have hx : x ∈ l := List.mem_of_getElem? hi
      simp [(hrest x hx).symm, ih hl.2 hi]

/-- There is an element after position `i` exactly when `i + 1` is a position, and one before
it exactly when `i` is not the first. -/
theorem isSome_neighbourAt {l : List α} {i : Nat} (hi : i < l.length) (towardsTail : Bool) :
    (neighbourAt l i towardsTail).isSome =
      if towardsTail then decide (i + 1 < l.length) else decide (0 < i) := by
  cases towardsTail with
  | true => by_cases h : i + 1 < l.length <;> simp [neighbourAt, h]
  | false =>
    cases i with
    | zero => rfl
    | succ j => simp [neighbourAt]; omega

variable [DecidableEq α]

/-- In a list of distinct elements, the element after the one in position `i` is the one in
position `i + 1`, and the one before it the one in position `i - 1`. -/
theorem nextIn_prevIn_of_getElem? {l : List α} (hl : l.Nodup) {i : Nat} {x : α}
    (hi : l[i]? = some x) :
    nextIn l x = neighbourAt l i true ∧ prevIn l x = neighbourAt l i false := by
  have hsplit := eq_take_cons_drop hi
  have hl' : (l.take i ++ x :: l.drop (i + 1)).Nodup := by rw [← hsplit]; exact hl
  have hnext := nextIn_middle hl'
  have hprev := prevIn_middle hl'
  rw [← hsplit] at hnext hprev
  refine ⟨by rw [hnext, List.head?_drop]; rfl, ?_⟩
  rw [hprev]
  cases i with
  | zero => rfl
  | succ j =>
    have hj : j < l.length := by
      have := (List.getElem?_eq_some_iff.1 hi).1
      omega
    simp [neighbourAt, List.getLast?_take, hj]

end Positions

/-! ## Cursor operations at a position -/

namespace Cursor

variable {κ ν : Type} [BEq κ] [Hashable κ] {m : Lru (SomeIndex κ) κ ν} {cur : Cursor} {i : Nat}

/-- The slot in position `i` of the recency list holds the entry in position `i`. -/
theorem entry_at (hi : m.arena.view.slots[i]? = some cur.slot) :
    ∃ e, m.arena.view.entries[i]? = some e ∧ e.slot = cur.slot ∧ m.toList[i]? = some e.pair := by
  rw [Recency.slots, List.getElem?_map, Option.map_eq_some_iff] at hi
  obtain ⟨e, he, hslot⟩ := hi
  exact ⟨e, he, hslot, by rw [Lru.toList_eq, List.getElem?_map, he]; rfl⟩

/-- Reading through a cursor at position `i` gives the key and the value in position `i`. -/
theorem key_value_at (hc : m.Consistent) (hi : m.arena.view.slots[i]? = some cur.slot) :
    ∃ k v, m.toList[i]? = some (k, v) ∧ cur.key m = .ok k ∧ cur.value m = .ok v := by
  obtain ⟨e, he, hslot, hpair⟩ := entry_at hi
  obtain ⟨order, h⟩ := hc.shape
  have hmem := List.mem_of_getElem? he
  refine ⟨e.key, e.value, hpair, ?_, ?_⟩
  · simp [Cursor.key, Cursor.onSlot, ← hslot, h.key?_live hmem, Except.mapError]
  · simp [Cursor.value, Cursor.onSlot, ← hslot, h.value?_live hmem, Except.mapError]

/-- Moving a cursor at position `i` goes to the neighbouring position and reports so when there
is one; otherwise the cursor stays where it is. -/
theorem move_at (hc : m.Consistent) (hi : m.arena.view.slots[i]? = some cur.slot)
    (towardsTail : Bool) :
    (if towardsTail then cur.moveNext m else cur.movePrev m) =
      .ok ((neighbourAt m.arena.view.slots i towardsTail).isSome,
        { cur with slot := (neighbourAt m.arena.view.slots i towardsTail).getD cur.slot }) := by
  obtain ⟨e, he, hslot, -⟩ := entry_at hi
  obtain ⟨order, h⟩ := hc.shape
  have hmem := List.mem_of_getElem? he
  rw [← hslot] at hi
  obtain ⟨hnext, hprev⟩ :=
    nextIn_prevIn_of_getElem? (l := m.arena.view.slots) hc.describes.nodup hi
  -- the link read from the cursor's slot is the neighbour in the list
  cases towardsTail with
  | true =>
    have hread := h.next?_live hmem
    rw [hnext, hslot] at hread
    cases hn : neighbourAt m.arena.view.slots i true with
    | none =>
      simp [Cursor.moveNext, Cursor.onSlot, hread, hn, Except.mapError, bind, Except.bind]
      rfl
    | some n =>
      simp [Cursor.moveNext, Cursor.onSlot, hread, hn, Except.mapError, bind, Except.bind, pure,
        Except.pure]
  | false =>
    have hread := h.prev?_live hmem
    rw [hprev, hslot] at hread
    cases hn : neighbourAt m.arena.view.slots i false with
    | none =>
      simp [Cursor.movePrev, Cursor.onSlot, hread, hn, Except.mapError, bind, Except.bind]
      rfl
    | some n =>
      simp [Cursor.movePrev, Cursor.onSlot, hread, hn, Except.mapError, bind, Except.bind, pure,
        Except.pure]

/-- Touching through a cursor at position `i` brings the entry there to the front: the list
loses position `i` and starts with that entry, whose slot the cursor keeps, and the cursor is
stamped with the generation after the move. -/
theorem touch_at (hc : m.Consistent) (hi : m.arena.view.slots[i]? = some cur.slot) :
    ∃ p m', m.toList[i]? = some p ∧ cur.touch m = .ok ({ cur with stamp := m'.generation }, m') ∧
      m.Performs (.touch p.1) m' ∧ m'.toList = p :: m.toList.eraseIdx i ∧
      m'.arena.view.slots = cur.slot :: m.arena.view.slots.eraseIdx i := by
  obtain ⟨e, he, hslot, hpair⟩ := entry_at hi
  obtain ⟨m', htouch, hperf, hes⟩ := hc.touch_performs (List.mem_of_getElem? he) cur hslot.symm
  have hfilter := filter_ne_eq_eraseIdx Recency.Entry.slot hc.describes.nodup he
  refine ⟨e.pair, m', hpair, htouch, hperf, ?_, ?_⟩
  · rw [Lru.toList_eq, Lru.toList_eq, hes, hfilter, List.map_cons, ← List.eraseIdx_map]
    rfl
  · rw [Recency.slots, Recency.slots, hes, hfilter, List.map_cons, ← List.eraseIdx_map, hslot]

/-- Taking through a cursor at position `i` removes the entry there from the list and from the
index, leaves every key the index takes for another as it was, and hands on a fresh cursor at
the entry after position `i` (`towardsTail`) or before it, when there is one. -/
theorem take_at (hc : m.Consistent) (hi : m.arena.view.slots[i]? = some cur.slot)
    (towardsTail : Bool) :
    ∃ p m' sigs, m.toList[i]? = some p ∧
      cur.take m towardsTail = .ok ((p, (neighbourAt m.arena.view.slots i towardsTail).map
        m'.cursorAt), m', sigs) ∧
      m'.Follows m (m.arena.view.entries.eraseIdx i) ∧ m'.toList = m.toList.eraseIdx i ∧
      m'.find? p.1 = none ∧ ∀ k, m.index.eqv p.1 k = false → m'.find? k = m.find? k := by
  obtain ⟨e, he, hslot, hpair⟩ := entry_at hi
  obtain ⟨m', sigs, htake, hf, hindex⟩ := hc.take_live (List.mem_of_getElem? he)
  rw [← hslot] at hi
  obtain ⟨hnext, hprev⟩ :=
    nextIn_prevIn_of_getElem? (l := m.arena.view.slots) hc.describes.nodup hi
  rw [filter_ne_eq_eraseIdx Recency.Entry.slot hc.describes.nodup he] at hf
  have hlaw := hc.describes.lawful
  refine ⟨e.pair, m', sigs, hpair, ?_, hf, ?_, ?_, fun k hk => ?_⟩
  · cases towardsTail <;>
      simp [Cursor.take, Cursor.onSlot, ← hslot, htake, hnext, hprev, Except.mapError,
        Recency.Entry.pair]
  · rw [Lru.toList_eq, Lru.toList_eq, hf.entries_eq, ← List.eraseIdx_map]
  · simp [Lru.find?, hindex, SomeIndex.find?_erase hlaw, SomeIndex.eqv_refl hlaw,
      Recency.Entry.pair]
  · have hk' : m.index.eqv e.key k = false := hk
    simp [Lru.find?, hindex, SomeIndex.find?_erase hlaw, hk']

end Cursor

/-! ## Cursor calls as steps of a session -/

namespace MapStep

variable {κ : Type}

/-- The cursor whose method a step calls. Comparing two cursors is a method of the first. -/
def receiver? : MapStep κ → Option String
  | .cKey c | .cValue c | .cTouch c | .cMoveNext c | .cMovePrev c | .cStaleness c | .cAge c
  | .cValid c | .cIter c _ | .cTake c | .cTakeNext c _ | .cTakePrev c _ | .cRemoveNext c _
  | .cRemovePrev c _ | .entriesEqual c _ => some c
  | _ => none

/-- What a removal through a cursor answers, from the pair it removed and whether it found the
neighbour it hands on: the pair, both, or whether it found the neighbour. -/
def removalReply (k : κ) (v : String) (found : Bool) : MapStep κ → Reply κ
  | .cTakeNext .. | .cTakePrev .. => .movedTaking found k v
  | .cRemoveNext .. | .cRemovePrev .. => .moved found
  | _ => .pair k v

/-- A removal through a cursor is a method of that cursor. -/
theorem receiver?_of_removal {st : MapStep κ} {c : String} {heir : Option String}
    {towardsTail : Bool} (h : st.removal? = some (c, heir, towardsTail)) :
    st.receiver? = some c := by
  cases st <;> simp_all [removal?, receiver?]

end MapStep

namespace Session

variable {κ : Type} [BEq κ] [Hashable κ] [ToString κ] {s : Session κ}

/-- A step that the session does not refuse runs its body on the session with its events
cleared: it leaves what the body leaves and replies with the body's answer, or with the text of
its fault. -/
theorem step_runs {st : MapStep κ} (hr : s.refusal? st = none) (listKeys : Bool) :
    ∃ rep, s.step listKeys st = .ok (rep, (exec (perform st) { s with events := #[] }).2) ∧
      rep.reply = match (exec (perform st) { s with events := #[] }).1 with
        | .ok a => a
        | .error message => .panicked message := by
  obtain ⟨rep, t, h⟩ := step_ok_of_refusal hr listKeys
  obtain ⟨ht, hrep⟩ := step_eq_ok h
  exact ⟨rep, ht ▸ h, hrep⟩

omit [ToString κ] in
/-- No session refuses a cursor call. -/
theorem refusal?_of_receiver {st : MapStep κ} {c : String} (h : st.receiver? = some c) :
    s.refusal? st = none := by
  cases st <;> simp only [MapStep.receiver?, reduceCtorEq] at h <;> rfl

/-- A removal step answers from what `takeAt` hands back, and leaves what it leaves. -/
theorem exec_perform_removal_ok {st : MapStep κ} {c : String} {heir : Option String}
    {towardsTail : Bool} (hst : st.removal? = some (c, heir, towardsTail)) {u : Session κ}
    {k : κ} {v : String} {next : Option Cursor}
    (h : (exec (takeAt c heir towardsTail) u).1 = .ok ((k, v), next)) :
    exec (perform st) u =
      (.ok (st.removalReply k v next.isSome), (exec (takeAt c heir towardsTail) u).2) := by
  generalize hx : exec (takeAt c heir towardsTail) u = x at h ⊢
  obtain ⟨r, u'⟩ := x
  obtain rfl : r = .ok ((k, v), next) := h
  cases st <;> simp only [MapStep.removal?, Option.some.injEq, Prod.mk.injEq, reduceCtorEq]
    at hst
  all_goals
    obtain ⟨rfl, rfl, rfl⟩ := hst
    simp [perform, perform.takeReply, hx, MapStep.removalReply, Except.map]

section At

variable {c : String} {cur : Cursor} {i : Nat}

/-- Reading through a cursor at position `i` answers with the key or the value in position `i`
and changes nothing. -/
theorem step_read_at (hc : s.map.Consistent) (hl : s.cursors.lookup c = some cur)
    (hi : s.map.arena.view.slots[i]? = some cur.slot) (listKeys : Bool) :
    ∃ k v, s.map.toList[i]? = some (k, v) ∧
      (∃ rep, s.step listKeys (.cKey c) = .ok (rep, { s with events := #[] }) ∧
        rep.reply = .key k) ∧
      ∃ rep, s.step listKeys (.cValue c) = .ok (rep, { s with events := #[] }) ∧
        rep.reply = .value v := by
  obtain ⟨k, v, hkv, hkey, hvalue⟩ := Cursor.key_value_at hc hi
  obtain ⟨rep, h, hrep⟩ := step_runs (show s.refusal? (.cKey c) = none from rfl) listKeys
  obtain ⟨rep', h', hrep'⟩ := step_runs (show s.refusal? (.cValue c) = none from rfl) listKeys
  have hkexec : exec (perform (.cKey c)) { s with events := #[] } =
      (.ok (.key k), { s with events := #[] }) := by
    simp [perform, hl, Cursor.held?, hkey, Except.mapError, Except.map]
  have hvexec : exec (perform (.cValue c)) { s with events := #[] } =
      (.ok (.value v), { s with events := #[] }) := by
    simp [perform, hl, Cursor.held?, hvalue, Except.mapError, Except.map]
  rw [hkexec] at h hrep
  rw [hvexec] at h' hrep'
  exact ⟨k, v, hkv, ⟨rep, h, hrep⟩, rep', h', hrep'⟩

/-- Moving a cursor at position `i` keeps the map; it goes to the neighbouring position and
answers true when there is one, and answers false and stays otherwise. -/
theorem step_move_at (hc : s.map.Consistent) (hl : s.cursors.lookup c = some cur)
    (hi : s.map.arena.view.slots[i]? = some cur.slot) (towardsTail listKeys : Bool) :
    ∃ rep t, s.step listKeys (if towardsTail then .cMoveNext c else .cMovePrev c) =
        .ok (rep, t) ∧
      rep.reply = .flag (neighbourAt s.map.arena.view.slots i towardsTail).isSome ∧
      t.map = s.map ∧ t.cursors.lookup c = some
        { cur with slot := (neighbourAt s.map.arena.view.slots i towardsTail).getD cur.slot } := by
  have hmove := Cursor.move_at hc hi towardsTail
  have hr : s.refusal? (if towardsTail then .cMoveNext c else .cMovePrev c) = none := by
    cases towardsTail <;> rfl
  have hperf : perform (if towardsTail then .cMoveNext c else .cMovePrev c) =
      perform.moveBy (κ := κ) c towardsTail := by
    cases towardsTail <;> rfl
  obtain ⟨rep, h, hrep⟩ := step_runs hr listKeys
  rw [hperf] at h hrep
  -- the move answers from the map's links and restores the cursor, moved, under its name
  have hexec : (exec (perform.moveBy c towardsTail) { s with events := #[] }).1 =
        .ok (.flag (neighbourAt s.map.arena.view.slots i towardsTail).isSome) ∧
      (exec (perform.moveBy c towardsTail) { s with events := #[] }).2.map = s.map ∧
      (exec (perform.moveBy c towardsTail) { s with events := #[] }).2.cursors.lookup c =
        some { cur with
          slot := (neighbourAt s.map.arena.view.slots i towardsTail).getD cur.slot } := by
    simp [perform.moveBy, hl, Cursor.held?, hmove, Except.mapError, Except.map]
  exact ⟨rep, _, h, by rw [hrep, hexec.1], hexec.2.1, hexec.2.2⟩

/-- Touching through a cursor at position `i` brings the entry there to the front, the cursor
with it, stamped with the generation after the move. -/
theorem step_touch_at (hc : s.map.Consistent) (hl : s.cursors.lookup c = some cur)
    (hi : s.map.arena.view.slots[i]? = some cur.slot) (listKeys : Bool) :
    ∃ p rep t, s.map.toList[i]? = some p ∧ s.step listKeys (.cTouch c) = .ok (rep, t) ∧
      rep.reply = .unit ∧ t.map.toList = p :: s.map.toList.eraseIdx i ∧
      t.map.arena.view.slots[0]? = some cur.slot ∧
      t.cursors.lookup c = some { cur with stamp := t.map.generation } := by
  obtain ⟨p, m', hp, htouch, -, htl, hslots⟩ := Cursor.touch_at hc hi
  obtain ⟨rep, h, hrep⟩ := step_runs (show s.refusal? (.cTouch c) = none from rfl) listKeys
  have hmap : (exec (perform (.cTouch c)) { s with events := #[] }).2.map = m' := by
    simp [perform, hl, Cursor.held?, htouch, Except.mapError]
  refine ⟨p, rep, _, hp, h, ?_, by rw [hmap, htl], by rw [hmap, hslots]; rfl, ?_⟩
  · rw [hrep]
    simp [perform, hl, Cursor.held?, htouch, Except.mapError, Except.map]
  · rw [hmap]
    simp [perform, hl, Cursor.held?, htouch, Except.mapError]

omit [ToString κ] in
/-- Removing through a cursor at position `i` takes the entry there out of the list and out of
the index and keeps every key the index takes for another. It hands back the pair and a fresh
cursor at the entry after position `i` (`towardsTail`) or before it, or none, and it stores
that cursor under the heir's name and clears the cursor's own name, unless the heir takes it. -/
theorem exec_takeAt_at (hc : s.map.Consistent) (hl : s.cursors.lookup c = some cur)
    (hi : s.map.arena.view.slots[i]? = some cur.slot) (heir : Option String)
    (towardsTail : Bool) :
    ∃ p m', s.map.toList[i]? = some p ∧ m'.toList = s.map.toList.eraseIdx i ∧
      m'.find? p.1 = none ∧ (∀ a, s.map.index.eqv p.1 a = false → m'.find? a = s.map.find? a) ∧
      (exec (takeAt c heir towardsTail) s).1 =
        .ok (p, (neighbourAt s.map.arena.view.slots i towardsTail).map m'.cursorAt) ∧
      (exec (takeAt c heir towardsTail) s).2.map = m' ∧
      (∀ name, heir = some name → (exec (takeAt c heir towardsTail) s).2.cursors.lookup name =
        (neighbourAt s.map.arena.view.slots i towardsTail).map m'.cursorAt) ∧
      (heir ≠ some c → (exec (takeAt c heir towardsTail) s).2.cursors.lookup c = none) := by
  obtain ⟨p, m', sigs, hp, htake, -, htl, hfind, hframe⟩ := Cursor.take_at hc hi towardsTail
  refine ⟨p, m', hp, htl, hfind, hframe, ?_⟩
  -- the removal takes the entry, clears the cursor's name and stores the heir under its own
  have hcleared := lookup_store_self s.cursors c none
  cases heir with
  | none =>
    simp only [takeAt, exec_bind, exec_held, hl, Cursor.held?, exec_get, exec_onCursor, htake,
      Except.mapError, exec_modify, exec_observe, exec_setCursor, exec_pure]
    exact ⟨trivial, trivial, fun _ hname => absurd hname (Option.some_ne_none _).symm,
      fun _ => hcleared⟩
  | some name =>
    simp only [takeAt, exec_bind, exec_held, hl, Cursor.held?, exec_get, exec_onCursor, htake,
      Except.mapError, exec_modify, exec_observe, exec_setCursor, exec_pure]
    refine ⟨trivial, trivial, fun name' hname => ?_, fun hne => ?_⟩
    · obtain rfl := Option.some.inj hname
      exact lookup_store_self _ name _
    · -- storing the heir under another name keeps the cursor's own name clear
      have hother := @lookup_store_other (s.cursors.filter (·.1 != c)) name c
        (fun h : name = c => hne (by rw [h]))
        ((neighbourAt s.map.arena.view.slots i towardsTail).map m'.cursorAt)
      exact hother.trans hcleared

/-- A removal step through a cursor at position `i`, as a step of the session: it answers from
the pair it removed and whether it found the neighbour, and leaves the map and the names as
`takeAt` does. -/
theorem step_removal_at (hc : s.map.Consistent) (hl : s.cursors.lookup c = some cur)
    (hi : s.map.arena.view.slots[i]? = some cur.slot) {st : MapStep κ}
    {heir : Option String} {towardsTail : Bool} (hst : st.removal? = some (c, heir, towardsTail))
    (listKeys : Bool) :
    ∃ k v rep t, s.map.toList[i]? = some (k, v) ∧ s.step listKeys st = .ok (rep, t) ∧
      rep.reply = st.removalReply k v (neighbourAt s.map.arena.view.slots i towardsTail).isSome ∧
      t.map.toList = s.map.toList.eraseIdx i ∧ t.map.find? k = none ∧
      (∀ a, s.map.index.eqv k a = false → t.map.find? a = s.map.find? a) ∧
      (∀ name, heir = some name → t.cursors.lookup name =
        (neighbourAt s.map.arena.view.slots i towardsTail).map t.map.cursorAt) ∧
      (heir ≠ some c → t.cursors.lookup c = none) := by
  obtain ⟨⟨k, v⟩, m', hp, htl, hfind, hframe, hans, hmap, hheir, hself⟩ :=
    exec_takeAt_at (s := { s with events := #[] }) hc hl hi heir towardsTail
  obtain ⟨rep, h, hrep⟩ := step_runs (refusal?_of_receiver (MapStep.receiver?_of_removal hst))
    listKeys
  have hexec := exec_perform_removal_ok hst hans
  rw [hexec] at h hrep
  rw [← hmap] at hheir
  refine ⟨k, v, rep, _, hp, h, ?_, by rw [hmap]; exact htl, by rw [hmap]; exact hfind,
    fun a ha => by rw [hmap]; exact hframe a ha, hheir, hself⟩
  rw [hrep, Option.isSome_map]

end At

/-! ## A consumed cursor -/

/-- The cursor named `c` is used up: every call of one of its methods but `Valid` faults with the
text of a consumed cursor and leaves the map, and `Valid` answers false. -/
def ConsumedAt (u : Session κ) (c : String) : Prop :=
  (∀ listKeys st, st.receiver? = some c → st ≠ .cValid c → ∃ rep t,
    u.step listKeys st = .ok (rep, t) ∧
      rep.reply = .panicked "cache: Entry used after it was removed" ∧ t.map = u.map) ∧
  ∀ listKeys, ∃ rep t, u.step listKeys (.cValid c) = .ok (rep, t) ∧ rep.reply = .flag false ∧
    t.map = u.map

/-- Every method but `Valid` of a name that holds no cursor faults with the text of a consumed
cursor and leaves the map. -/
theorem exec_consumed {u : Session κ} {c : String} {st : MapStep κ}
    (hrecv : st.receiver? = some c) (hvalid : st ≠ .cValid c) (hl : u.cursors.lookup c = none) :
    (exec (perform st) u).1 = .error "cache: Entry used after it was removed" ∧
      (exec (perform st) u).2.map = u.map := by
  cases st <;> simp only [MapStep.receiver?, reduceCtorEq, Option.some.injEq] at hrecv <;>
    subst hrecv
  case cValid => exact absurd rfl hvalid
  all_goals
    exact ⟨by simp [perform, perform.moveBy, perform.takeReply, takeAt, hl, Cursor.held?,
      Except.mapError, CursorFault.message], by simp [perform, perform.moveBy,
      perform.takeReply, takeAt, hl, Cursor.held?, Except.mapError]⟩

/-- A name that holds no cursor is used up. -/
theorem consumedAt_of_lookup {c : String} (hl : s.cursors.lookup c = none) : s.ConsumedAt c := by
  refine ⟨fun listKeys st hrecv hvalid => ?_, fun listKeys => ?_⟩
  · obtain ⟨rep, h, hrep⟩ := step_runs (refusal?_of_receiver (s := s) hrecv) listKeys
    obtain ⟨hfault, hmap⟩ := exec_consumed (u := { s with events := #[] }) hrecv hvalid hl
    rw [hfault] at hrep
    exact ⟨rep, _, h, hrep, hmap⟩
  · obtain ⟨rep, h, hrep⟩ := step_runs (show s.refusal? (.cValid c) = none from rfl) listKeys
    refine ⟨rep, _, h, ?_, rfl⟩
    rw [hrep]
    simp [perform, cursor, hl, Cursor.valid, Except.map]

/-! ## Sessions a script reaches -/

section Reachable

variable {shape : MapShape κ} {capacity : Int} {setup : SessionSetup κ}

/-- In every session a script reaches, from lawful keys and with no armed reaction to a miss,
every call through a held cursor whose slot holds the entry in position `i` of the recency list
acts on the list at position `i`. Key and Value answer with that entry and change nothing.
MoveNext and MovePrevious keep the map; each goes to position `i + 1` or `i - 1` and answers
true when there is one, and otherwise answers false and stays. Touch brings the entry to the
front, the cursor with it. A removal takes the entry out of the list and out of the index and
keeps every key the index takes for another; it answers from the pair, hands on a fresh cursor
at the entry that followed or preceded it, or none exactly when there was none, and leaves the
cursor used up. -/
theorem cursor_calls_act_at_position (hshape : shape.Lawful) (hmiss : setup.missPush = none)
    (hs : Reachable shape capacity setup s) {c : String} {cur : Cursor}
    (hl : s.cursors.lookup c = some cur) {i : Nat}
    (hi : s.map.arena.view.slots[i]? = some cur.slot) (listKeys : Bool) :
    ∃ k v, s.map.toList[i]? = some (k, v) ∧
      (∃ rep, s.step listKeys (.cKey c) = .ok (rep, { s with events := #[] }) ∧
        rep.reply = .key k) ∧
      (∃ rep, s.step listKeys (.cValue c) = .ok (rep, { s with events := #[] }) ∧
        rep.reply = .value v) ∧
      (∃ rep t, s.step listKeys (.cMoveNext c) = .ok (rep, t) ∧
        rep.reply = .flag (decide (i + 1 < s.map.toList.length)) ∧ t.map = s.map ∧
        t.cursors.lookup c =
          some { cur with slot := (neighbourAt s.map.arena.view.slots i true).getD cur.slot }) ∧
      (∃ rep t, s.step listKeys (.cMovePrev c) = .ok (rep, t) ∧
        rep.reply = .flag (decide (0 < i)) ∧ t.map = s.map ∧
        t.cursors.lookup c =
          some { cur with slot := (neighbourAt s.map.arena.view.slots i false).getD cur.slot }) ∧
      (∃ rep t, s.step listKeys (.cTouch c) = .ok (rep, t) ∧ rep.reply = .unit ∧
        t.map.toList = (k, v) :: s.map.toList.eraseIdx i ∧
        t.map.arena.view.slots[0]? = some cur.slot ∧
        t.cursors.lookup c = some { cur with stamp := t.map.generation }) ∧
      ∀ st heir towardsTail, st.removal? = some (c, heir, towardsTail) →
        ∃ rep t, s.step listKeys st = .ok (rep, t) ∧
          rep.reply = st.removalReply k v (if towardsTail then
            decide (i + 1 < s.map.toList.length) else decide (0 < i)) ∧
          t.map.toList = s.map.toList.eraseIdx i ∧ t.map.find? k = none ∧
          (∀ a, s.map.index.eqv k a = false → t.map.find? a = s.map.find? a) ∧
          (∀ name, heir = some name → t.cursors.lookup name =
            (neighbourAt s.map.arena.view.slots i towardsTail).map t.map.cursorAt) ∧
          (heir ≠ some c → t.ConsumedAt c) := by
  have hc := (hs.good hshape hmiss).consistent
  -- the positions of the list are the positions of its slots
  have hlen : s.map.arena.view.slots.length = s.map.toList.length := by
    rw [Lru.toList_eq, Recency.slots, List.length_map, List.length_map]
  have hfound := isSome_neighbourAt (List.getElem?_eq_some_iff.1 hi).1
  rw [hlen] at hfound
  obtain ⟨k, v, hkv, hkey, hvalue⟩ := step_read_at hc hl hi listKeys
  obtain ⟨p, trep, t, hp, htouch⟩ := step_touch_at hc hl hi listKeys
  obtain rfl : p = (k, v) := Option.some.inj (hp.symm.trans hkv)
  refine ⟨k, v, hkv, hkey, hvalue, ?_, ?_, ⟨trep, t, htouch⟩, fun st heir towardsTail hst => ?_⟩
  · obtain ⟨rep, t, h, hrep, hmap, hcur⟩ := step_move_at hc hl hi true listKeys
    rw [hfound true] at hrep
    exact ⟨rep, t, h, hrep, hmap, hcur⟩
  · obtain ⟨rep, t, h, hrep, hmap, hcur⟩ := step_move_at hc hl hi false listKeys
    rw [hfound false] at hrep
    exact ⟨rep, t, h, hrep, hmap, hcur⟩
  · obtain ⟨k', v', rep, t, hkv', h, hrep, htl, hfind, hframe, hheir, hself⟩ :=
      step_removal_at hc hl hi hst listKeys
    obtain ⟨rfl, rfl⟩ : k' = k ∧ v' = v := by simpa using hkv'.symm.trans hkv
    rw [hfound towardsTail] at hrep
    exact ⟨rep, t, h, hrep, htl, hfind, hframe, hheir,
      fun hne => consumedAt_of_lookup (hself hne)⟩

/-- The witness: on an ordered map of capacity three over integer keys holding two entries, a
cursor made at the older one, which stands in position one. -/
theorem cursor_calls_act_at_position_older :
    ∃ (s : Session Int) (cur : Cursor),
      (MapShape.ordered (some compare) : MapShape Int).Lawful ∧
      ({ observers := ⟨false, false, false, false⟩, loader := none, naming := none,
         missPush := none } : SessionSetup Int).missPush = none ∧
      Reachable (.ordered (some compare)) 3
        ({ observers := ⟨false, false, false, false⟩, loader := none, naming := none,
           missPush := none } : SessionSetup Int) s ∧
      s.cursors.lookup "c" = some cur ∧ s.map.arena.view.slots[1]? = some cur.slot ∧
      ∃ k v, s.map.toList[1]? = some (k, v) ∧
        (∃ rep, s.step false (.cKey "c") = .ok (rep, { s with events := #[] }) ∧
          rep.reply = .key k) ∧
        (∃ rep, s.step false (.cValue "c") = .ok (rep, { s with events := #[] }) ∧
          rep.reply = .value v) ∧
        (∃ rep t, s.step false (.cMoveNext "c") = .ok (rep, t) ∧
          rep.reply = .flag (decide (1 + 1 < s.map.toList.length)) ∧ t.map = s.map ∧
          t.cursors.lookup "c" =
            some { cur with slot := (neighbourAt s.map.arena.view.slots 1 true).getD cur.slot }) ∧
        (∃ rep t, s.step false (.cMovePrev "c") = .ok (rep, t) ∧
          rep.reply = .flag (decide (0 < 1)) ∧ t.map = s.map ∧
          t.cursors.lookup "c" =
            some { cur with slot := (neighbourAt s.map.arena.view.slots 1 false).getD cur.slot }) ∧
        (∃ rep t, s.step false (.cTouch "c") = .ok (rep, t) ∧ rep.reply = .unit ∧
          t.map.toList = (k, v) :: s.map.toList.eraseIdx 1 ∧
          t.map.arena.view.slots[0]? = some cur.slot ∧
          t.cursors.lookup "c" = some { cur with stamp := t.map.generation }) ∧
        ∀ st heir towardsTail, st.removal? = some ("c", heir, towardsTail) →
          ∃ rep t, s.step false st = .ok (rep, t) ∧
            rep.reply = st.removalReply k v (if towardsTail then
              decide (1 + 1 < s.map.toList.length) else decide (0 < 1)) ∧
            t.map.toList = s.map.toList.eraseIdx 1 ∧ t.map.find? k = none ∧
            (∀ a, s.map.index.eqv k a = false → t.map.find? a = s.map.find? a) ∧
            (∀ name, heir = some name → t.cursors.lookup name =
              (neighbourAt s.map.arena.view.slots 1 towardsTail).map t.map.cursorAt) ∧
            (heir ≠ some "c" → t.ConsumedAt "c") := by
  have hlaw := MapShape.lawful_ordered_compare
  have hok : ((open? (.ordered (some compare) : MapShape Int) 3
      ({ observers := ⟨false, false, false, false⟩, loader := none, naming := none,
         missPush := none } : SessionSetup Int) false).toOption.bind fun s0 =>
      (s0.step false (.push 1 "a")).toOption.bind fun p1 =>
      (p1.2.step false (.push 2 "b")).toOption.bind fun p2 =>
      (p2.2.step false (.entry 1 "c")).toOption.map fun p3 =>
        (p3.2.cursors.lookup "c").any fun cur =>
          p3.2.map.arena.view.slots[1]? == some cur.slot) = some true := by
    decide +kernel
  cases h0 : open? (.ordered (some compare) : MapShape Int) 3
      ({ observers := ⟨false, false, false, false⟩, loader := none, naming := none,
         missPush := none } : SessionSetup Int) false with
  | error e => simp [h0, Except.toOption] at hok
  | ok s0 =>
  cases h1 : s0.step false (.push 1 "a") with
  | error e => simp [h0, h1, Except.toOption] at hok
  | ok p1 =>
  cases h2 : p1.2.step false (.push 2 "b") with
  | error e => simp [h0, h1, h2, Except.toOption] at hok
  | ok p2 =>
  cases h3 : p2.2.step false (.entry 1 "c") with
  | error e => simp [h0, h1, h2, h3, Except.toOption] at hok
  | ok p3 =>
  simp only [h0, h1, h2, h3, Except.toOption, Option.bind_some, Option.map_some,
    Option.some.injEq, Option.any_eq_true, beq_iff_eq] at hok
  obtain ⟨cur, hcur, hslot⟩ := hok
  have hs : Reachable (.ordered (some compare)) 3
      ({ observers := ⟨false, false, false, false⟩, loader := none, naming := none,
         missPush := none } : SessionSetup Int) p3.2 :=
    .step false _ (.step false _ (.step false _ (.opened false h0) h1) h2) h3
  exact ⟨p3.2, cur, hlaw, rfl, hs, hcur, hslot,
    cursor_calls_act_at_position hlaw rfl hs hcur hslot false⟩

end Reachable

end Session

end RecencyMap
