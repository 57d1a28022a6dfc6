import RecencyMap.Proofs.Session.Rules

/-!
# Every step of a session is safe

Run from a good session, the body of every step that the session does not refuse leaves a good
session and answers with no panic; when it fails, it has left the map as it was, and the step
is one that may fail there (`Session.mayPanic`): it uses a cursor that is consumed or that
sits at a slot holding nothing, steps a walk from a slot holding nothing, or loads a key its
loader panics on. Nothing else fails: the map's own operations never fault on a consistent
map, and a range query scans only live slots.
-/

namespace RecencyMap

/-- Whether a reply is the text of a fault. -/
def Reply.isPanic {κ : Type} : Reply κ → Bool
  | .panicked _ => true
  | _ => false

namespace Session

variable {κ : Type} [BEq κ] [Hashable κ]

/-- No cursor under `c` sits at a live slot: the name holds none, or its cursor's slot holds
nothing. -/
def deadCursor (s : Session κ) (c : String) : Prop :=
  ∀ cur, s.cursors.lookup c = some cur → s.map.arena.live cur.slot = false

/-- When a step may fail in a session whose map is consistent: it uses a cursor that was
consumed, never set, or sits at a dead slot; it steps a walk that is not done from a dead slot;
or it loads a key the loader panics on. -/
def mayPanic (s : Session κ) : MapStep κ → Prop
  | .cKey c | .cValue c | .cTouch c | .cMoveNext c | .cMovePrev c | .cAge c | .cTake c =>
    s.deadCursor c
  | .cTakeNext c _ | .cTakePrev c _ | .cRemoveNext c _ | .cRemovePrev c _ => s.deadCursor c
  | .cStaleness c | .cIter c _ => s.cursors.lookup c = none
  | .entriesEqual a b => s.deadCursor a ∨ s.deadCursor b
  | .itNext it => ∃ w, s.walks.lookup it = some w ∧ w.done = false ∧
      s.map.arena.live w.front = false
  | .itBack it => ∃ w, s.walks.lookup it = some w ∧ w.done = false ∧
      s.map.arena.live w.back = false
  | .getOrLoad k => ∃ rule, s.setup.loader = some rule ∧ rule.panicking.contains k = true
  | _ => False

/-- An answer that is no fault. -/
def Calm (r : Reply κ) : Prop := r.isPanic = false

variable [ToString κ] {s : Session κ} {Q : Prop}

omit [ToString κ] in
theorem deadCursor_of_none {c : String} (hl : s.cursors.lookup c = none) : s.deadCursor c := by
  intro cur h
  rw [hl] at h
  cases h

omit [ToString κ] in
/-- A cursor under `c` whose slot is dead makes `c` dead. -/
theorem deadCursor_of_lookup {c : String} {cur : Cursor} (hl : s.cursors.lookup c = some cur)
    (hdead : s.map.arena.live cur.slot = false) : s.deadCursor c := by
  intro cur' h
  rw [hl] at h
  cases h
  exact hdead

/-! ## Cursors -/

omit [ToString κ] in
/-- A read through the cursor under `c` fails only when the cursor is dead. -/
theorem Good.safe_cursorRead (hs : s.Good) {c : String} {α : Type}
    {read : Cursor → Lru (SomeIndex κ) κ String → Except CursorFault α}
    (hread : ∀ cur e, read cur s.map = .error e → s.map.arena.live cur.slot = false)
    (reply : α → Reply κ) (hreply : ∀ a, Calm (reply a)) :
    Safe s (s.deadCursor c) Calm
      (held c >>= fun cur => get >>= fun t => reply <$> onCursor (read cur t.map)) := by
  refine Safe.held hs deadCursor_of_none fun cur hl => Safe.get_bind (Safe.map ?_)
  exact Safe.orFault hs (fun e he => deadCursor_of_lookup hl (hread cur e he)) fun a _ => hreply a

theorem Good.safe_cKey (hs : s.Good) (c : String) :
    Safe s (s.mayPanic (.cKey c)) Calm (perform (.cKey c)) :=
  hs.safe_cursorRead (fun _ _ he => Cursor.live_of_key_error he) _ fun _ => rfl

theorem Good.safe_cValue (hs : s.Good) (c : String) :
    Safe s (s.mayPanic (.cValue c)) Calm (perform (.cValue c)) :=
  hs.safe_cursorRead (fun _ _ he => Cursor.live_of_value_error he) _ fun _ => rfl

theorem Good.safe_cAge (hs : s.Good) (c : String) :
    Safe s (s.mayPanic (.cAge c)) Calm (perform (.cAge c)) :=
  hs.safe_cursorRead (fun _ _ he => Cursor.live_of_age_error he) _ fun _ => rfl

theorem Good.safe_cStaleness (hs : s.Good) (c : String) :
    Safe s (s.mayPanic (.cStaleness c)) Calm (perform (.cStaleness c)) :=
  Safe.held hs id fun _ _ => Safe.get_bind (Completes.safe (Completes.pure hs rfl))

theorem Good.safe_cValid (hs : s.Good) (c : String) :
    Safe s (s.mayPanic (.cValid c)) Calm (perform (.cValid c)) :=
  Completes.safe (Completes.get_bind (Completes.get_bind (Completes.pure hs rfl)))

/-- Touching moves a live entry to the front and refreshes the cursor. -/
theorem Good.safe_cTouch (hs : s.Good) (c : String) :
    Safe s (s.mayPanic (.cTouch c)) Calm (perform (.cTouch c)) := by
  refine Safe.held hs deadCursor_of_none fun cur hl => Safe.get_bind ?_
  refine Safe.orFault_bind hs
    (fun e he => deadCursor_of_lookup hl (Cursor.live_of_touch_error he)) fun p hp => ?_
  obtain ⟨cur', m'⟩ := p
  obtain ⟨es, hf⟩ := hs.consistent.touch_ok hp
  -- the touched map follows; the rest only stores the cursor
  refine Completes.safe (Completes.bind_exec (exec_modify _ _) ?_)
  refine Completes.bind_exec (exec_setCursor _ _ _) (Completes.pure ?_ rfl)
  exact hs.of_follows hf rfl

omit [ToString κ] in
/-- Stepping a cursor reads a link and moves the cursor only. -/
theorem Good.safe_moveBy (hs : s.Good) (c : String) (towardsTail : Bool) :
    Safe s (s.deadCursor c) Calm (perform.moveBy c towardsTail) := by
  refine Safe.held hs deadCursor_of_none fun cur hl => Safe.get_bind ?_
  refine Safe.orFault_bind hs
    (fun e he => deadCursor_of_lookup hl (Cursor.live_of_move_error he)) fun _ _ => ?_
  refine Completes.safe (Completes.bind_exec (exec_setCursor _ _ _) (Completes.pure ?_ rfl))
  exact hs.of_eq rfl rfl

omit [ToString κ] in
/-- Taking under a cursor removes a live entry, consumes the cursor and stores the heir. -/
theorem Good.safe_takeAt (hs : s.Good) (c : String) (heir : Option String)
    (towardsTail : Bool) :
    Safe s (s.deadCursor c) (fun _ => True) (takeAt c heir towardsTail) := by
  refine Safe.held hs deadCursor_of_none fun cur hl => Safe.get_bind ?_
  refine Safe.orFault_bind hs
    (fun e he => deadCursor_of_lookup hl (Cursor.live_of_take_error he)) fun p hp => ?_
  obtain ⟨r, m', sigs⟩ := p
  obtain ⟨es, hf⟩ := hs.consistent.cursor_take_ok hp
  have hs' : ({ s with map := m' } : Session κ).Good := hs.of_follows hf rfl
  -- after the take nothing can fail: record, clear the cursor, store the heir
  refine Completes.safe (Completes.bind_exec (exec_modify _ _) ?_)
  refine Completes.bind_exec (exec_observe _ _) ?_
  refine Completes.bind_exec (exec_setCursor _ _ _) ?_
  cases heir with
  | none =>
    refine Completes.bind_exec (exec_pure _ _) (Completes.pure ?_ trivial)
    exact hs'.of_eq rfl rfl
  | some name =>
    refine Completes.bind_exec (exec_setCursor _ _ _) (Completes.pure ?_ trivial)
    exact hs'.of_eq rfl rfl

omit [ToString κ] in
/-- A step that takes under a cursor and then only builds its reply. -/
theorem Good.safe_afterTake (hs : s.Good) (c : String) (heir : Option String)
    (towardsTail : Bool) {f : (κ × String) × Option Cursor → SessionM κ (Reply κ)}
    (hf : ∀ r (t : Session κ), t.Good → Completes t Calm (f r)) :
    Safe s (s.deadCursor c) Calm (takeAt c heir towardsTail >>= f) := by
  have ht := hs.safe_takeAt c heir towardsTail
  exact Safe.bind_completes ht fun r _ _ => hf r _ ht.good

theorem Good.safe_cTake (hs : s.Good) (c : String) :
    Safe s (s.mayPanic (.cTake c)) Calm (perform (.cTake c)) :=
  hs.safe_afterTake c none true fun _ _ ht => Completes.pure ht rfl

omit [ToString κ] in
theorem Good.safe_takeReply (hs : s.Good) (c heir : String) (towardsTail : Bool) :
    Safe s (s.deadCursor c) Calm (perform.takeReply c heir towardsTail) :=
  hs.safe_afterTake c (some heir) towardsTail fun _ _ ht => Completes.pure ht rfl

theorem Good.safe_cRemoveNext (hs : s.Good) (c heir : String) :
    Safe s (s.mayPanic (.cRemoveNext c heir)) Calm (perform (.cRemoveNext c heir)) :=
  hs.safe_afterTake c (some heir) true fun _ _ ht => Completes.pure ht rfl

theorem Good.safe_cRemovePrev (hs : s.Good) (c heir : String) :
    Safe s (s.mayPanic (.cRemovePrev c heir)) Calm (perform (.cRemovePrev c heir)) :=
  hs.safe_afterTake c (some heir) false fun _ _ ht => Completes.pure ht rfl

/-! ## Map operations -/

omit [ToString κ] in
/-- With no reaction armed, the reaction to a miss does nothing. -/
theorem exec_reactToMiss (h : s.missPush = none) : exec reactToMiss s = (.ok (), s) := by
  cases hrec : s.setup.observers.recording <;> simp [reactToMiss, hrec, h]

omit [ToString κ] in
/-- Reading a key keeps the map's answer; a miss reacts with nothing. -/
theorem Good.exec_getValue (hs : s.Good) {k : κ} {v : Option String}
    {m' : Lru (SomeIndex κ) κ String} {sigs : List (Signal κ String)}
    (h : s.map.get k = .ok (v, m', sigs)) :
    exec (getValue k) s = (.ok v, (exec (observe sigs) { s with map := m' }).2) := by
  have hrun := exec_onMap_ok (f := fun m => m.get k) s h
  cases v with
  | none => simp [getValue, hrun, exec_reactToMiss, hs.missPush, Except.map]
  | some v => simp [getValue, hrun]

omit [ToString κ] in
theorem Good.completes_getValue (hs : s.Good) (k : κ) :
    Completes s (fun _ => True) (getValue k) := by
  obtain ⟨m', sigs, es, h, hf, -⟩ := hs.consistent.get_naive k
  have hrun := hs.exec_getValue h
  refine ⟨⟨_, by rw [hrun], trivial⟩, ?_⟩
  rw [hrun]
  exact hs.of_follows hf rfl

omit [ToString κ] in
/-- A miss on a consistent map leaves it as it was. -/
theorem Good.getValue_miss (hs : s.Good) {k : κ} (hk : s.map.find? k = none) :
    ∃ t : Session κ, exec (getValue k) s = (.ok none, t) ∧ t.Good ∧ t.map = s.map := by
  have h : s.map.get k = .ok (none, s.map, [.miss]) := by
    simp only [Lru.find?] at hk
    simp [Lru.get, hk]
  refine ⟨_, hs.exec_getValue h, ?_, rfl⟩
  exact hs.of_eq rfl rfl

omit [ToString κ] in
/-- A hit on a consistent map answers with a value. -/
theorem Good.getValue_hit (hs : s.Good) {k : κ} {slot : Slot} (hk : s.map.find? k = some slot) :
    ∃ v t, exec (getValue k) s = (.ok (some v), t) ∧ t.Good := by
  obtain ⟨m', sigs, es, h, hf, -⟩ := hs.consistent.get_naive k
  rw [Lru.toList_eq] at h
  rcases hs.consistent.lookup k with ⟨e, -, -, -, hn, -⟩ | ⟨hnone, -, -⟩
  · simp only [Naive.get, hn, Recency.Entry.pair] at h
    exact ⟨_, _, hs.exec_getValue h, hs.of_follows hf rfl⟩
  · rw [hk] at hnone
    cases hnone

omit [ToString κ] in
theorem Good.completes_pushEntry (hs : s.Good) (k : κ) (v : String) :
    Completes s (fun _ => True) (pushEntry k v) := by
  obtain ⟨m', sigs, es, h, hf, -⟩ := hs.consistent.push_naive hs.capacity_pos k v
  exact Completes.onMap hs h hf trivial

/-! ## Entries under fresh cursors, walks -/

omit [ToString κ] in
/-- Storing a cursor at a live slot, or none, and reading its entry completes. -/
theorem Good.completes_storeEntry (hs : s.Good) (name : String) {c : Option Cursor}
    (hlive : ∀ cur, c = some cur → s.map.arena.live cur.slot = true) :
    Completes s Calm (storeEntry name c) := by
  cases c with
  | none =>
    refine Completes.bind_exec (exec_setCursor _ _ _) (Completes.pure ?_ rfl)
    exact hs.of_eq rfl rfl
  | some cur =>
    obtain ⟨n, hn, -⟩ := Arena.live?_of_live (hlive cur rfl) .key
    refine Completes.bind_exec (exec_setCursor _ _ _) (Completes.get_bind ?_)
    refine Completes.orFault_bind (Cursor.key_of_node hn) ?_
    refine Completes.orFault_bind (Cursor.value_of_node hn) (Completes.pure ?_ rfl)
    exact hs.of_eq rfl rfl

omit [ToString κ] in
/-- A fresh cursor at a live slot of the map, or none. -/
theorem Good.completes_storeSlot (hs : s.Good) (name : String) {o : Option Slot}
    (hlive : ∀ slot, o = some slot → s.map.arena.live slot = true) :
    Completes s Calm (storeEntry name (o.map s.map.cursorAt)) := by
  refine hs.completes_storeEntry name fun cur hcur => ?_
  obtain ⟨slot, hslot, rfl⟩ := Option.map_eq_some_iff.mp hcur
  exact hlive slot hslot

omit [ToString κ] in
/-- Stepping a walk fails only when it is not done and stands at a dead slot. -/
theorem Good.safe_stepWalk (hs : s.Good) (it : String) (forward : Bool) :
    Safe s (∃ w, s.walks.lookup it = some w ∧ w.done = false ∧
      s.map.arena.live (if forward then w.front else w.back) = false) Calm
      (perform.stepWalk it forward) := by
  refine Safe.get_bind ?_
  dsimp only
  cases hl : s.walks.lookup it with
  | none => exact Completes.safe (Completes.pure hs rfl)
  | some w =>
    dsimp only
    cases hn : (if forward then w.next s.map.arena else w.nextBack s.map.arena) with
    | mk w' r =>
    dsimp only
    refine Safe.bind_exec (exec_setWalk _ _ _) rfl (Safe.map ?_)
    refine Safe.orFault ?_ (fun e he => ⟨w, rfl, ?_⟩) fun _ _ => rfl
    · exact hs.of_eq rfl rfl
    -- the walk's own step failed: it was not done and its end was dead
    cases forward with
    | true =>
      simp only [if_true] at hn ⊢
      exact Walk.next_error (by rw [hn, he])
    | false =>
      simp only [Bool.false_eq_true, if_false] at hn ⊢
      exact Walk.nextBack_error (by rw [hn, he])

theorem Good.completes_iter (hs : s.Good) (it : String) :
    Completes s Calm (perform (.iter it)) := by
  refine Completes.get_bind (Completes.bind_exec (exec_setWalk _ _ _) (Completes.pure ?_ rfl))
  exact hs.of_eq rfl rfl

/-- A walk from a cursor clears the old walk first, then needs the cursor to be there. -/
theorem Good.safe_cIter (hs : s.Good) (c it : String) :
    Safe s (s.mayPanic (.cIter c it)) Calm (perform (.cIter c it)) := by
  have ht : ({ s with walks := s.walks.filter (·.1 != it) } : Session κ).Good := hs.of_eq rfl rfl
  refine Safe.bind_exec (exec_setWalk _ _ _) rfl (Safe.held ht id fun _ _ => ?_)
  refine Completes.safe (Completes.get_bind ?_)
  refine Completes.bind_exec (exec_setWalk _ _ _) (Completes.pure ?_ rfl)
  exact hs.of_eq rfl rfl

/-- Comparing the entries of two cursors reads both; either being dead is to blame. -/
theorem Good.safe_entriesEqual (hs : s.Good) (a b : String) :
    Safe s (s.mayPanic (.entriesEqual a b)) Calm (perform (.entriesEqual a b)) := by
  refine Safe.held hs (fun hl => Or.inl (deadCursor_of_none hl)) fun ca hla => Safe.get_bind ?_
  refine Safe.orFault_bind hs
    (fun e he => Or.inl (deadCursor_of_lookup hla (Cursor.live_of_key_error he))) fun ka _ => ?_
  refine Safe.held hs (fun hl => Or.inr (deadCursor_of_none hl)) fun cb hlb => ?_
  refine Safe.orFault_bind hs
    (fun e he => Or.inr (deadCursor_of_lookup hlb (Cursor.live_of_key_error he))) fun kb _ => ?_
  -- different keys answer at once; equal keys go on to read both values
  split
  · exact Completes.safe (Completes.pure hs rfl)
  · refine Safe.orFault_bind hs
      (fun e he => Or.inl (deadCursor_of_lookup hla (Cursor.live_of_value_error he))) fun _ _ => ?_
    exact Safe.orFault_bind hs
      (fun e he => Or.inr (deadCursor_of_lookup hlb (Cursor.live_of_value_error he)))
      fun _ _ => Completes.safe (Completes.pure hs rfl)

/-! ## Range queries -/

theorem mem_of_mem_takeLimit {α : Type} {limit : Option Nat} {xs : List α} {a : α}
    (h : a ∈ takeLimit limit xs) : a ∈ xs := by
  cases limit with
  | none => exact h
  | some n => exact List.mem_of_mem_take h

omit [ToString κ] in
theorem exec_scanOf {r : KeyRange κ} {entries : List (κ × Slot)}
    (h : s.map.index.scan? r = some entries) : exec (scanOf r) s = (.ok entries, s) := by
  simp [scanOf, h]

omit [ToString κ] in
/-- A cursor at the most recent entry of a scan: every scanned slot is live, so its key and
value can be read. -/
theorem Good.completes_mostRecentBy (hs : s.Good) {r : KeyRange κ} {entries : List (κ × Slot)}
    (hscan : s.map.index.scan? r = some entries) (cond : κ → String → Bool) (c : String) :
    Completes s Calm (mostRecentBy r cond c) := by
  obtain ⟨best, hbest, hlive⟩ :=
    Lru.mostRecentAmong_live cond (hs.consistent.scan_live hscan)
  have hread : exec (readMap fun m => m.mostRecentAmong cond entries) s = (.ok best, s) := by
    simp [hbest, Except.mapError]
  refine Completes.bind_exec (exec_scanOf hscan) (Completes.get_bind ?_)
  dsimp only
  exact Completes.bind_exec hread (hs.completes_storeSlot c hlive)

omit [ToString κ] in
/-- An index that is not hashed scans every range. -/
theorem scan?_of_not_hashed (h : ∀ u, s.map.index ≠ .hashed u) (r : KeyRange κ) :
    ∃ entries, s.map.index.scan? r = some entries := by
  cases hix : s.map.index with
  | hashed u => exact absurd hix (h u)
  | ordered cmp t => exact ⟨_, rfl⟩

theorem Good.completes_mostRecent (hs : s.Good) (r : KeyRange κ) (c : String)
    (hr : s.refusal? (.mostRecent r c) = none) :
    Completes s Calm (perform (.mostRecent r c)) := by
  obtain ⟨entries, hscan⟩ :=
    scan?_of_not_hashed (s := s) (fun u hu => by simp [refusal?, hu] at hr) r
  exact hs.completes_mostRecentBy hscan _ c

theorem Good.completes_mostRecentWhere (hs : s.Good) (r : KeyRange κ)
    (valueIn : Option (List String)) (keyNotIn : List κ) (c : String)
    (hr : s.refusal? (.mostRecentWhere r valueIn keyNotIn c) = none) :
    Completes s Calm (perform (.mostRecentWhere r valueIn keyNotIn c)) := by
  obtain ⟨entries, hscan⟩ :=
    scan?_of_not_hashed (s := s) (fun u hu => by simp [refusal?, hu] at hr) r
  refine Completes.bind_exec (exec_scanOf hscan) ?_
  refine Completes.bind_good (hs.completes_mostRecentBy hscan _ c) fun rep t ht hcalm => ?_
  -- a found entry is reported with the keys the scan visited; any other reply as it is
  split
  · exact Completes.pure ht rfl
  · exact Completes.pure ht hcalm

theorem Good.completes_ascend (hs : s.Good) (r : KeyRange κ) (limit : Option Nat)
    (hr : s.refusal? (.ascend r limit) = none) :
    Completes s Calm (perform (.ascend r limit)) := by
  obtain ⟨entries, hscan⟩ :=
    scan?_of_not_hashed (s := s) (fun u hu => by simp [refusal?, hu] at hr) r
  have hlive : ∀ p ∈ takeLimit limit entries, s.map.arena.live p.2 = true :=
    fun p hp => hs.consistent.scan_live hscan p (mem_of_mem_takeLimit hp)
  obtain ⟨vs, hvs⟩ := Lru.valuesAmong_live hlive
  exact Completes.bind_exec (exec_scanOf hscan) (Completes.map (Completes.readMap hs hvs rfl))

/-! ## Locked removal, samples, loading -/

/-- Removing under the lock finds the key's live slot and takes it. -/
theorem Good.completes_lockedRemove (hs : s.Good) (k : κ) :
    Completes s Calm (perform (.lockedRemove k)) := by
  refine Completes.get_bind ?_
  dsimp only
  cases hc : s.map.entry? k with
  | none => exact Completes.pure hs rfl
  | some cur =>
    obtain ⟨slot, hslot, rfl⟩ := Option.map_eq_some_iff.mp hc
    obtain ⟨e, he, hes⟩ := hs.consistent.mem_of_live (hs.consistent.live_of_find? hslot)
    obtain ⟨m', sigs, htake, hf⟩ :=
      hs.consistent.cursor_take_live he (s.map.cursorAt slot) hes.symm true
    refine Completes.get_bind (Completes.orFault_bind htake ?_)
    refine Completes.bind_exec (exec_modify _ _) ?_
    refine Completes.bind_exec (exec_observe _ _) (Completes.pure ?_ rfl)
    exact hs.of_follows hf rfl

theorem Good.completes_gather (hs : s.Good) (hr : s.refusal? .gather = none) :
    Completes s Calm (perform .gather) := by
  refine Completes.get_bind ?_
  cases hn : s.setup.naming with
  | none => simp [refusal?, hn] at hr
  | some naming => exact Completes.pure hs rfl

/-- The loader only notes that it ran. -/
theorem exec_loadBy_map (s : Session κ) (rule : LoaderRule κ) (k : κ) :
    (exec (loadBy rule k) s).2.map = s.map := by
  simp only [loadBy, exec_bind, exec_note]
  split
  · simp
  · split <;> rfl

theorem Good.safe_loadBy (hs : s.Good) (rule : LoaderRule κ) (k : κ)
    (hQ : rule.panicking.contains k = true → Q) :
    Safe s Q (fun _ => True) (loadBy rule k) := by
  have ht : ({ s with events := s.events.push (.load k) } : Session κ).Good := hs.of_eq rfl rfl
  refine Safe.bind_exec (exec_note _ _) rfl ?_
  dsimp only
  split
  · next hp =>
    exact Safe.bind_keep (Safe.throw (P := fun _ => True) ht (hQ hp)) (by simp)
      fun _ ha _ => by simp at ha
  · split <;> exact Completes.safe (Completes.pure ht trivial)

/-- Loading on a miss: both reads miss and keep the map, so only the loader's own panic can
fail the step, and it fails before anything is pushed. -/
theorem Good.safe_getOrLoad (hs : s.Good) (k : κ) :
    Safe s (s.mayPanic (.getOrLoad k)) Calm (perform (.getOrLoad k)) := by
  refine Safe.get_bind (Safe.map ?_)
  unfold getOrLoad
  cases hk : s.map.find? k with
  | some slot =>
    -- a hit answers at once
    obtain ⟨v, t, hrun, ht⟩ := hs.getValue_hit hk
    exact Completes.safe (Completes.bind_exec hrun (Completes.pure ht rfl))
  | none =>
    -- a miss keeps the map, and so does the second read the loader waits for
    obtain ⟨t, hrun, ht, htmap⟩ := hs.getValue_miss hk
    refine Safe.bind_exec hrun htmap ?_
    cases hl : s.setup.loader with
    | none => exact Completes.safe (Completes.pure ht rfl)
    | some rule =>
      obtain ⟨u, hrun', hu, humap⟩ := ht.getValue_miss (by rw [htmap]; exact hk)
      refine Safe.bind_exec hrun' humap ?_
      have hload := hu.safe_loadBy (Q := s.mayPanic (.getOrLoad k)) rule k
        fun hp => ⟨rule, hl, hp⟩
      refine Safe.bind_keep hload (exec_loadBy_map u rule k) fun r _ _ => ?_
      cases r with
      | error reason => exact Completes.safe (Completes.pure hload.good rfl)
      | ok v =>
        refine Completes.safe (Completes.bind_good (R := fun _ => True) ?_
          fun _ t ht _ => Completes.pure ht rfl)
        exact Completes.map ((hload.good.completes_pushEntry k v).mono fun _ _ => trivial)

/-! ## Every step -/

/-- Every step the session does not refuse is safe: it leaves a good session, never answers
with a fault's text, and fails only where `mayPanic` allows, with the map as it was. -/
theorem Good.safe_perform (hs : s.Good) (st : MapStep κ) (hr : s.refusal? st = none) :
    Safe s (s.mayPanic st) Calm (perform st) := by
  cases st with
  | push k v | lockedPush k v =>
    exact Completes.safe (Completes.map ((hs.completes_pushEntry k v).mono fun _ _ => rfl))
  | get k | lockedGet k =>
    exact Completes.safe (Completes.map ((hs.completes_getValue k).mono fun _ _ => rfl))
  | peek k | lockedPeek k =>
    exact Completes.safe (Completes.map (Completes.readMap hs (hs.consistent.peek_naive k) rfl))
  | head => exact Completes.safe (Completes.map (Completes.readMap hs hs.consistent.headKey_eq rfl))
  | tail => exact Completes.safe (Completes.map (Completes.readMap hs hs.consistent.tailKey_eq rfl))
  | contains _ | len | lockedLen | cap | isEmpty | keys | lockedKeys | lockedDo | all _
  | backward _ => exact Completes.safe (Completes.get_bind (Completes.pure hs rfl))
  | extend pairs =>
    obtain ⟨m', sigs, es, h, hf, -⟩ := hs.consistent.extend_naive hs.capacity_pos pairs
    exact Completes.safe (Completes.bind_good (Completes.onMap (P := fun _ => True) hs h hf trivial)
      fun _ _ ht _ => Completes.pure ht rfl)
  | drain limit =>
    obtain ⟨m', sigs, es, h, hf, -⟩ := hs.consistent.drain_naive limit
    exact Completes.safe (Completes.map (Completes.onMap hs h hf rfl))
  | iter it => exact Completes.safe (hs.completes_iter it)
  | itNext it => exact hs.safe_stepWalk it true
  | itBack it => exact hs.safe_stepWalk it false
  | entry k c =>
    exact Completes.safe (Completes.get_bind
      (hs.completes_storeSlot c fun _ h => hs.consistent.live_of_find? h))
  | headEntry c =>
    exact Completes.safe (Completes.get_bind
      (hs.completes_storeSlot c fun _ h => hs.consistent.live_of_head h))
  | tailEntry c =>
    exact Completes.safe (Completes.get_bind
      (hs.completes_storeSlot c fun _ h => hs.consistent.live_of_tail h))
  | cKey c => exact hs.safe_cKey c
  | cValue c => exact hs.safe_cValue c
  | cTouch c => exact hs.safe_cTouch c
  | cMoveNext c => exact hs.safe_moveBy c true
  | cMovePrev c => exact hs.safe_moveBy c false
  | cStaleness c => exact hs.safe_cStaleness c
  | cAge c => exact hs.safe_cAge c
  | cValid c => exact hs.safe_cValid c
  | cIter c it => exact hs.safe_cIter c it
  | cTake c => exact hs.safe_cTake c
  | cTakeNext c heir => exact hs.safe_takeReply c heir true
  | cTakePrev c heir => exact hs.safe_takeReply c heir false
  | cRemoveNext c heir => exact hs.safe_cRemoveNext c heir
  | cRemovePrev c heir => exact hs.safe_cRemovePrev c heir
  | entriesEqual a b => exact hs.safe_entriesEqual a b
  | mostRecent r c => exact Completes.safe (hs.completes_mostRecent r c hr)
  | mostRecentWhere r valueIn keyNotIn c =>
    exact Completes.safe (hs.completes_mostRecentWhere r valueIn keyNotIn c hr)
  | ascend r limit => exact Completes.safe (hs.completes_ascend r limit hr)
  | lockedRemove k => exact Completes.safe (hs.completes_lockedRemove k)
  | gather => exact Completes.safe (hs.completes_gather hr)
  | getOrLoad k => exact hs.safe_getOrLoad k

end Session

end RecencyMap
