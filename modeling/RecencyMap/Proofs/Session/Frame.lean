import RecencyMap.Proofs.Session.Steps

/-!
# What a step leaves alone

A session holds a map with its observers' record, and beside it the cursors and walks a
script names. Most steps touch only one side: a read of the map stores a cursor or a walk at
most, and a map operation never touches the cursors it does not name. This file states such
frames once, for every step.

`Keeps π x` says that running `x` from any session leaves what `π` sees of it. It holds of
every computation that only reads, and it is closed under the monad's combinators; a view
blind to the map side (`BlindToMap`) is kept by every map operation, and a view blind to the
names (`BlindToNames`) by every store of a cursor or a walk.

The two results: a step that does not name a cursor leaves the cursor under that name as it
was (`keeps_lookup_perform`), and a step that only reads the map leaves the map side of the
session as it was (`keeps_mapSide_perform`).
-/

namespace RecencyMap

/-- Whether a step may change the map: a push, a read that may hit, an extension, a drain, a
touch or a removal through a cursor, a locked removal, or a load on a miss. -/
def MapStep.mutates {κ : Type} : MapStep κ → Bool
  | .push .. | .lockedPush .. | .get _ | .lockedGet _ | .extend _ | .drain _ | .cTouch _
  | .cTake _ | .cTakeNext .. | .cTakePrev .. | .cRemoveNext .. | .cRemovePrev ..
  | .lockedRemove _ | .getOrLoad _ => true
  | _ => false

/-- The names a step may store a cursor under or clear: the cursor it makes or moves or
touches or consumes, and the heir of a removal. -/
def MapStep.names {κ : Type} : MapStep κ → List String
  | .entry _ c | .headEntry c | .tailEntry c | .cTouch c | .cMoveNext c | .cMovePrev c
  | .cTake c | .mostRecent _ c | .mostRecentWhere _ _ _ c => [c]
  | .cTakeNext c heir | .cTakePrev c heir | .cRemoveNext c heir | .cRemovePrev c heir =>
    [c, heir]
  | _ => []

namespace Session

variable {κ : Type} [BEq κ] [Hashable κ]

section Keeps

variable {α β γ : Type} {π : Session κ → γ}

@[simp] theorem exec_discard (x : SessionM κ α) (s : Session κ) :
    exec (discard x) s = ((exec x s).1.map fun _ => (), (exec x s).2) := by
  show exec ((fun _ => PUnit.unit) <$> x) s = _
  rw [exec_map]

/-- Running `x` from any session leaves what `π` sees of it. -/
def Keeps (π : Session κ → γ) (x : SessionM κ α) : Prop := ∀ s, π (exec x s).2 = π s

namespace Keeps

theorem of_exec {x : SessionM κ α} (h : ∀ s, (exec x s).2 = s) : Keeps π x := fun s => by
  rw [h]

protected theorem pure (a : α) : Keeps π (pure a : SessionM κ α) := of_exec fun _ => rfl

protected theorem get : Keeps π (get : SessionM κ (Session κ)) := of_exec fun _ => rfl

protected theorem throw (e : String) : Keeps π (throw e : SessionM κ α) := of_exec fun _ => rfl

protected theorem orFault {ε : Type} (msg : ε → String) (r : Except ε α) :
    Keeps π (orFault msg r) := of_exec fun _ => by simp

protected theorem readMap (f : Lru (SomeIndex κ) κ String → Except ArenaFault α) :
    Keeps π (readMap f) := of_exec fun _ => by simp

protected theorem held (c : String) : Keeps π (held c) := of_exec fun _ => by simp

protected theorem onCursor (r : Except CursorFault α) : Keeps π (onCursor r) :=
  of_exec fun _ => by simp

protected theorem cursor (c : String) : Keeps π (cursor c) := of_exec fun _ => rfl

protected theorem bind {x : SessionM κ α} {f : α → SessionM κ β} (hx : Keeps π x)
    (hf : ∀ a, Keeps π (f a)) : Keeps π (x >>= f) := by
  intro s
  rw [exec_bind]
  cases h : (exec x s).1 with
  | ok a =>
    rw [hf a, hx s]
  | error e => exact hx s

protected theorem map {x : SessionM κ α} (hx : Keeps π x) (f : α → β) : Keeps π (f <$> x) :=
  fun s => by
    rw [exec_map]
    exact hx s

/-- A computation that reads the session first keeps `π` when what it then does from the
session it read keeps `π` there. -/
protected theorem throw_bind (e : String) (f : α → SessionM κ β) : Keeps π (throw e >>= f) :=
  of_exec fun _ => by simp

protected theorem discard {x : SessionM κ α} (hx : Keeps π x) : Keeps π (discard x) :=
  fun s => by
    rw [exec_discard]
    exact hx s

/-- A computation that reads the session first keeps `π` when what it then does from the
session it read keeps `π` there. -/
protected theorem get_bind_at {f : Session κ → SessionM κ α}
    (hf : ∀ s, π (exec (f s) s).2 = π s) : Keeps π (get >>= f) := fun s => by
  rw [exec_bind, exec_get]
  exact hf s

protected theorem get_bind {f : Session κ → SessionM κ α} (hf : ∀ s, Keeps π (f s)) :
    Keeps π (get >>= f) :=
  Keeps.get_bind_at fun s => hf s s

protected theorem modify {f : Session κ → Session κ} (h : ∀ s, π (f s) = π s) :
    Keeps π (modify f) := fun s => by
  rw [exec_modify]
  exact h s

end Keeps

/-! ## Views blind to one side of a session -/

/-- `π` sees nothing of the map side of a session: its map, its observers' record and its
armed reaction. -/
def BlindToMap (π : Session κ → γ) : Prop :=
  ∀ s m evs cs mp, π { s with map := m, events := evs, counters := cs, missPush := mp } = π s

/-- `π` sees nothing of the cursors and walks a session names. -/
def BlindToNames (π : Session κ → γ) : Prop :=
  ∀ s cs ws, π { s with cursors := cs, walks := ws } = π s

section MapSide

variable (hπ : BlindToMap π)
include hπ

theorem Keeps.observe (sigs : List (Signal κ String)) : Keeps π (observe sigs) :=
  Keeps.modify fun s => hπ s s.map _ _ s.missPush

theorem Keeps.note (e : Event κ String) : Keeps π (note e) :=
  Keeps.modify fun s => hπ s s.map _ s.counters s.missPush

theorem Keeps.onMap {f : Lru (SomeIndex κ) κ String →
    Except ArenaFault (Traced (SomeIndex κ) κ String α)} : Keeps π (Session.onMap f) := by
  refine Keeps.get_bind fun s => (Keeps.orFault _ _).bind fun p => ?_
  obtain ⟨a, m, sigs⟩ := p
  refine (Keeps.modify fun t => hπ t m t.events t.counters t.missPush).bind fun _ => ?_
  exact (Keeps.observe hπ sigs).bind fun _ => Keeps.pure a

theorem Keeps.pushEntry (k : κ) (v : String) : Keeps π (Session.pushEntry k v) :=
  Keeps.onMap hπ

/-- The reaction to a miss disarms itself and pushes, both on the map side. -/
theorem Keeps.reactToMiss : Keeps π Session.reactToMiss := by
  refine Keeps.get_bind_at fun s => ?_
  split
  · split
    · rw [exec_bind]
      show π (exec (discard (Session.pushEntry _ _)) { s with missPush := none }).2 = π s
      rw [exec_discard, Keeps.pushEntry hπ]
      exact hπ s s.map s.events s.counters none
    · rfl
  · rfl

theorem Keeps.getValue (k : κ) : Keeps π (Session.getValue k) :=
  (Keeps.onMap hπ).bind fun v => by
    split
    · exact (Keeps.reactToMiss hπ).bind fun _ => Keeps.pure _
    · exact Keeps.pure _

theorem Keeps.loadBy [ToString κ] (rule : LoaderRule κ) (k : κ) :
    Keeps π (Session.loadBy rule k) := by
  refine (Keeps.note hπ _).bind fun _ => ?_
  dsimp only
  split
  · exact Keeps.throw_bind _ _
  · split <;> exact Keeps.pure _

/-- Loading on a miss is made of reads, the loader and a push. -/
theorem Keeps.getOrLoad [ToString κ] (loader : Option (κ → SessionM κ (Except String String)))
    (hl : ∀ load, loader = some load → ∀ k, Keeps π (load k)) (k : κ) :
    Keeps π (RecencyMap.getOrLoad Session.getValue (fun k v => discard (Session.pushEntry k v))
      loader k) := by
  unfold RecencyMap.getOrLoad
  refine (Keeps.getValue hπ k).bind fun v => ?_
  dsimp only
  split
  · exact Keeps.pure _
  · split
    · next _ _ load =>
      refine (Keeps.getValue hπ k).bind fun v' => ?_
      split
      · exact Keeps.pure _
      · refine (hl load rfl k).bind fun r => ?_
        split
        · exact Keeps.pure _
        · exact (Keeps.pushEntry hπ _ _).discard.bind fun _ => Keeps.pure _
    · exact Keeps.pure _

end MapSide

section Names

variable (hπ : BlindToNames π)
include hπ

theorem Keeps.setCursor (name : String) (c : Option Cursor) :
    Keeps π (Session.setCursor name c) :=
  Keeps.modify fun s => hπ s _ s.walks

theorem Keeps.setWalk (name : String) (w : Option Walk) : Keeps π (Session.setWalk name w) :=
  Keeps.modify fun s => hπ s s.cursors _

end Names

end Keeps

/-! ## The cursor under a name -/

section Lookup

omit [BEq κ] [Hashable κ] in
/-- Storing under one name leaves what another name holds. -/
theorem lookup_store_other {cs : List (String × Cursor)} {name c : String} (hne : name ≠ c)
    (cur : Option Cursor) :
    (match cur with
      | some cur => (name, cur) :: cs.filter (·.1 != name)
      | none => cs.filter (·.1 != name)).lookup c = cs.lookup c := by
  have hfilter : (cs.filter (·.1 != name)).lookup c = cs.lookup c := by
    induction cs with
    | nil => rfl
    | cons p cs ih =>
      obtain ⟨n, x⟩ := p
      by_cases hn : n = name
      · subst hn
        have hcn : (c == n) = false := by simpa using Ne.symm hne
        simp [List.lookup, hcn, ih]
      · have hnn : (n != name) = true := by simpa using hn
        simp only [List.filter_cons, hnn, if_true, List.lookup]
        split <;> simp_all
  cases cur with
  | none => exact hfilter
  | some cur =>
    have hcn : (c == name) = false := by simpa using Ne.symm hne
    simp [List.lookup, hcn, hfilter]

variable {α : Type} {c : String}

theorem Keeps.setCursor_other {name : String} (hne : name ≠ c) (cur : Option Cursor) :
    Keeps (fun s : Session κ => s.cursors.lookup c) (Session.setCursor name cur) := fun s => by
  rw [exec_setCursor]
  exact lookup_store_other hne cur

theorem blindToMap_lookup : BlindToMap fun s : Session κ => s.cursors.lookup c :=
  fun _ _ _ _ _ => rfl

end Lookup

/-! ## Every step -/

section Steps

variable {γ : Type} {π : Session κ → γ} {name : String}

theorem Keeps.storeEntry (hcur : ∀ cur, Keeps π (Session.setCursor name cur)) (c : Option Cursor) :
    Keeps π (Session.storeEntry name c) := by
  refine (hcur c).bind fun _ => ?_
  split
  · exact Keeps.pure _
  · exact Keeps.get_bind fun _ => (Keeps.onCursor _).bind fun _ =>
      (Keeps.onCursor _).bind fun _ => Keeps.pure _

theorem Keeps.scanOf (r : KeyRange κ) : Keeps π (Session.scanOf r) := by
  refine Keeps.get_bind fun s => ?_
  split
  · exact Keeps.pure _
  · exact Keeps.throw _

theorem Keeps.mostRecentBy (hcur : ∀ cur, Keeps π (Session.setCursor name cur)) (r : KeyRange κ)
    (cond : κ → String → Bool) : Keeps π (Session.mostRecentBy r cond name) :=
  (Keeps.scanOf r).bind fun _ => Keeps.get_bind fun _ =>
    (Keeps.readMap _).bind fun _ => Keeps.storeEntry hcur _

/-- Every step that does not change the map keeps a view that the stores it makes keep. -/
theorem keeps_perform_of_reads [ToString κ] (st : MapStep κ) (hst : st.mutates = false)
    (hwalk : ∀ it w, Keeps π (Session.setWalk it w))
    (hcur : ∀ name ∈ st.names, ∀ cur, Keeps π (Session.setCursor name cur)) :
    Keeps π (perform st) := by
  cases st with
  | push | lockedPush | get | lockedGet | extend | drain | cTouch | cTake | cTakeNext
  | cTakePrev | cRemoveNext | cRemovePrev | lockedRemove | getOrLoad => cases hst
  | peek k | lockedPeek k => exact (Keeps.readMap _).map _
  | head | tail => exact (Keeps.readMap _).map _
  | contains _ | len | lockedLen | cap | isEmpty | keys | lockedKeys | lockedDo | all _
  | backward _ => exact Keeps.get_bind fun _ => Keeps.pure _
  | iter it => exact Keeps.get_bind fun _ => (hwalk _ _).bind fun _ => Keeps.pure _
  | itNext it | itBack it =>
    refine Keeps.get_bind fun s => ?_
    split
    · exact Keeps.pure _
    · exact (hwalk _ _).bind fun _ => (Keeps.orFault _ _).map _
  | entry k c | headEntry c | tailEntry c =>
    exact Keeps.get_bind fun _ => Keeps.storeEntry (hcur c (by simp [MapStep.names])) _
  | cKey c | cValue c | cAge c =>
    exact (Keeps.held c).bind fun _ => Keeps.get_bind fun _ => (Keeps.onCursor _).map _
  | cStaleness c => exact (Keeps.held c).bind fun _ => Keeps.get_bind fun _ => Keeps.pure _
  | cValid c => exact (Keeps.cursor c).bind fun _ => Keeps.get_bind fun _ => Keeps.pure _
  | cMoveNext c | cMovePrev c =>
    exact (Keeps.held c).bind fun _ => Keeps.get_bind fun _ => (Keeps.onCursor _).bind fun _ =>
      (hcur c (by simp [MapStep.names]) _).bind fun _ => Keeps.pure _
  | cIter c it =>
    exact (hwalk _ _).bind fun _ => (Keeps.held c).bind fun _ => Keeps.get_bind fun _ =>
      (hwalk _ _).bind fun _ => Keeps.pure _
  | entriesEqual a b =>
    refine (Keeps.held a).bind fun _ => Keeps.get_bind fun _ => (Keeps.onCursor _).bind fun _ =>
      (Keeps.held b).bind fun _ => (Keeps.onCursor _).bind fun _ => ?_
    split
    · exact Keeps.pure _
    · exact (Keeps.onCursor _).bind fun _ => (Keeps.onCursor _).bind fun _ => Keeps.pure _
  | mostRecent r c => exact Keeps.mostRecentBy (hcur c (by simp [MapStep.names])) r _
  | mostRecentWhere r valueIn keyNotIn c =>
    refine (Keeps.scanOf r).bind fun _ =>
      (Keeps.mostRecentBy (hcur c (by simp [MapStep.names])) r _).bind fun reply => ?_
    split <;> exact Keeps.pure _
  | ascend r limit => exact (Keeps.scanOf r).bind fun _ => (Keeps.readMap _).map _
  | gather =>
    refine Keeps.get_bind fun s => ?_
    split
    · exact Keeps.pure _
    · exact Keeps.throw _

theorem Keeps.takeAt (hπ : BlindToMap π) {c : String} {heir : Option String}
    (hc : ∀ cur, Keeps π (Session.setCursor c cur))
    (hh : ∀ name, heir = some name → ∀ cur, Keeps π (Session.setCursor name cur))
    (towardsTail : Bool) : Keeps π (Session.takeAt c heir towardsTail) := by
  refine (Keeps.held c).bind fun _ => Keeps.get_bind fun _ => (Keeps.onCursor _).bind fun p => ?_
  obtain ⟨r, m, sigs⟩ := p
  refine (Keeps.modify fun t => hπ t m t.events t.counters t.missPush).bind fun _ =>
    (Keeps.observe hπ sigs).bind fun _ => (hc none).bind fun _ => ?_
  cases heir with
  | none => exact (Keeps.pure ()).bind fun _ => Keeps.pure _
  | some name => exact (hh name rfl _).bind fun _ => Keeps.pure _

/-- Every step that may change the map keeps a view blind to the map that the stores it makes
keep. -/
theorem keeps_perform_of_mutates [ToString κ] (hπ : BlindToMap π) (st : MapStep κ)
    (hst : st.mutates = true)
    (hcur : ∀ name ∈ st.names, ∀ cur, Keeps π (Session.setCursor name cur)) :
    Keeps π (perform st) := by
  have hmap : ∀ (m : Lru (SomeIndex κ) κ String), Keeps π
      (modify fun t : Session κ => { t with map := m }) :=
    fun m => Keeps.modify fun t => hπ t m t.events t.counters t.missPush
  cases st with
  | push k v | lockedPush k v => exact (Keeps.pushEntry hπ k v).map _
  | get k | lockedGet k => exact (Keeps.getValue hπ k).map _
  | extend pairs => exact (Keeps.onMap hπ).bind fun _ => Keeps.pure _
  | drain limit => exact (Keeps.onMap hπ).map _
  | cTouch c =>
    refine (Keeps.held c).bind fun _ => Keeps.get_bind fun _ =>
      (Keeps.onCursor _).bind fun p => ?_
    obtain ⟨cur, m⟩ := p
    exact (hmap m).bind fun _ =>
      (hcur c (by simp [MapStep.names]) _).bind fun _ => Keeps.pure _
  | cTake c =>
    exact (Keeps.takeAt hπ (hcur c (by simp [MapStep.names])) (by simp) true).bind fun _ =>
      Keeps.pure _
  | cTakeNext c heir | cTakePrev c heir | cRemoveNext c heir | cRemovePrev c heir =>
    exact (Keeps.takeAt hπ (hcur c (by simp [MapStep.names]))
      (fun name h => by cases h; exact hcur heir (by simp [MapStep.names])) _).bind fun _ =>
        Keeps.pure _
  | lockedRemove k =>
    refine Keeps.get_bind fun s => ?_
    dsimp only
    split
    · exact Keeps.pure _
    · refine Keeps.get_bind fun _ => (Keeps.onCursor _).bind fun p => ?_
      obtain ⟨r, m, sigs⟩ := p
      exact (hmap m).bind fun _ => (Keeps.observe hπ sigs).bind fun _ => Keeps.pure _
  | getOrLoad k =>
    refine Keeps.get_bind fun s => (Keeps.getOrLoad hπ _ (fun load hload k => ?_) k).map _
    obtain ⟨rule, -, rfl⟩ := Option.map_eq_some_iff.mp hload
    exact Keeps.loadBy hπ rule k
  | _ => cases hst

/-- A step that does not name `c` leaves the cursor under `c` as it was. -/
theorem keeps_lookup_perform [ToString κ] (st : MapStep κ) {c : String} (hc : c ∉ st.names) :
    Keeps (fun s : Session κ => s.cursors.lookup c) (perform st) := by
  have hcur : ∀ name ∈ st.names, ∀ cur,
      Keeps (fun s : Session κ => s.cursors.lookup c) (Session.setCursor name cur) :=
    fun name hname cur => Keeps.setCursor_other (fun h : name = c => hc (h ▸ hname)) cur
  cases hst : st.mutates with
  | false => exact keeps_perform_of_reads st hst (fun _ _ => Keeps.modify fun _ => rfl) hcur
  | true => exact keeps_perform_of_mutates blindToMap_lookup st hst hcur

/-- The map side of a session: its setup, map, armed reaction and observers' record. -/
def mapSide (s : Session κ) :
    SessionSetup κ × Lru (SomeIndex κ) κ String × Option (κ × String) × Array (Event κ String) :=
  (s.setup, s.map, s.missPush, s.events)

/-- A step that does not change the map leaves the map side of the session as it was. -/
theorem keeps_mapSide_perform [ToString κ] (st : MapStep κ) (hst : st.mutates = false) :
    Keeps mapSide (perform st) :=
  keeps_perform_of_reads st hst (fun _ _ => Keeps.setWalk (fun _ _ _ => rfl) _ _)
    fun _ _ _ => Keeps.setCursor (fun _ _ _ => rfl) _ _

end Steps

end Session

end RecencyMap
