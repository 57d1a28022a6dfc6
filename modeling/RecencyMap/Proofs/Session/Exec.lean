import Mathlib
import RecencyMap.Session.Map

/-!
# Running session steps

The body of a session step is a computation that may fail with a message and keeps every
change it made before failing. `Session.exec` runs one from a session and gives its answer with
the session it leaves. The lemmas here compute `exec` for each building block a step is made of,
so that a step's run is computed by rewriting with them and never by unfolding the monad.
-/

namespace RecencyMap

namespace Session

variable {κ : Type} [BEq κ] [Hashable κ]

/-- The answer of running `x` from `s`, and the session it leaves. -/
def exec {α : Type} (x : SessionM κ α) (s : Session κ) : Except String α × Session κ :=
  (x.run s).run

section Monad

variable {α β : Type} (s : Session κ)

@[simp] theorem exec_pure (a : α) : exec (pure a : SessionM κ α) s = (.ok a, s) := rfl

@[simp] theorem exec_get : exec (get : SessionM κ (Session κ)) s = (.ok s, s) := rfl

@[simp] theorem exec_modify (f : Session κ → Session κ) :
    exec (modify f : SessionM κ Unit) s = (.ok (), f s) := rfl

@[simp] theorem exec_set (s' : Session κ) : exec (set s' : SessionM κ PUnit) s = (.ok (), s') := rfl

@[simp] theorem exec_throw (e : String) : exec (throw e : SessionM κ α) s = (.error e, s) := rfl

/-- A computation followed by another runs the second from where the first left off, unless
the first failed. -/
@[simp] theorem exec_bind (x : SessionM κ α) (f : α → SessionM κ β) :
    exec (x >>= f) s =
      match (exec x s).1 with
      | .ok a => exec (f a) (exec x s).2
      | .error e => (.error e, (exec x s).2) := by
  unfold exec
  simp only [ExceptT.run_bind]
  show Id.run (StateT.run _ s) = _
  rw [StateT.run_bind]
  simp only [StateT.run]
  generalize ExceptT.run x s = p
  obtain ⟨r, s'⟩ := p
  cases r <;> rfl

@[simp] theorem exec_map (f : α → β) (x : SessionM κ α) :
    exec (f <$> x) s = ((exec x s).1.map f, (exec x s).2) := by
  rw [← bind_pure_comp, exec_bind]
  generalize exec x s = p
  obtain ⟨r, s'⟩ := p
  cases r <;> rfl

end Monad

/-! ## The building blocks of a step -/

section Blocks

variable {α : Type} (s : Session κ)

@[simp] theorem exec_orFault {ε : Type} (msg : ε → String) (r : Except ε α) :
    exec (orFault msg r) s = (r.mapError msg, s) := by
  cases r <;> rfl

@[simp] theorem exec_held (c : String) :
    exec (held c) s = ((Cursor.held? (s.cursors.lookup c)).mapError CursorFault.message, s) := by
  simp [held, cursor]

@[simp] theorem exec_onCursor (r : Except CursorFault α) :
    exec (onCursor r) s = (r.mapError CursorFault.message, s) := by
  simp [onCursor]

@[simp] theorem exec_readMap (f : Lru (SomeIndex κ) κ String → Except ArenaFault α) :
    exec (readMap f) s = ((f s.map).mapError ArenaFault.message, s) := by
  simp [readMap]

@[simp] theorem exec_observe (sigs : List (Signal κ String)) :
    exec (observe sigs) s = (.ok (), { s with
      events := s.events ++ (sigs.flatMap s.setup.observers.events).toArray,
      counters := sigs.foldl Counters.tally s.counters }) := rfl

theorem exec_onMap_ok {f : Lru (SomeIndex κ) κ String →
    Except ArenaFault (Traced (SomeIndex κ) κ String α)} {a : α}
    {m : Lru (SomeIndex κ) κ String} {sigs : List (Signal κ String)}
    (h : f s.map = .ok (a, m, sigs)) :
    exec (onMap f) s = (.ok a, (exec (observe sigs) { s with map := m }).2) := by
  simp [onMap, h, Except.mapError]
  rfl

@[simp] theorem exec_setCursor (c : String) (cur : Option Cursor) :
    exec (setCursor c cur) s = (.ok (), { s with cursors := match cur with
      | some cur => (c, cur) :: s.cursors.filter (·.1 != c)
      | none => s.cursors.filter (·.1 != c) }) := rfl

@[simp] theorem exec_setWalk (it : String) (w : Option Walk) :
    exec (setWalk it w) s = (.ok (), { s with walks := match w with
      | some w => (it, w) :: s.walks.filter (·.1 != it)
      | none => s.walks.filter (·.1 != it) }) := rfl

@[simp] theorem exec_note (ev : Event κ String) :
    exec (note ev) s = (.ok (), { s with events := s.events.push ev }) := rfl

end Blocks

end Session

end RecencyMap
