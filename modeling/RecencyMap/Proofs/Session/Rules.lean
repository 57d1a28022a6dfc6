import RecencyMap.Proofs.Session.Exec
import RecencyMap.Proofs.Map.Naive
import RecencyMap.Proofs.Map.Cursors

/-!
# Rules for the steps of a session

A session is good when its map is consistent, can hold an entry, and no reaction to a miss is
armed. Two judgements about a computation run from a good session carry every proof about
steps:

* `Completes s P x`: `x` succeeds with an answer satisfying `P` and leaves a good session;
* `Safe s Q P x`: `x` leaves a good session, a success answers with `P`, and a failure has
  left the map as it found it, with `Q` true of where it started.

A step reads first and changes the map only once nothing can fail any more. The rules follow
that shape: a read that may fail, then a safe rest (`Safe.bind_read`); a safe start that keeps
the map, then a safe rest (`Safe.bind_keep`); a safe start, then a rest that completes
(`Safe.bind_completes`).
-/

namespace RecencyMap

namespace Session

variable {κ : Type} [BEq κ] [Hashable κ]

/-- What every session a script reaches keeps: a consistent map with room for an entry, and no
armed reaction to a miss. -/
structure Good (s : Session κ) : Prop where
  consistent : s.map.Consistent
  capacity_pos : 0 < s.map.capacity
  missPush : s.missPush = none

theorem Good.of_follows {s s' : Session κ} {es : List (Recency.Entry κ String)} (hs : s.Good)
    (hf : s'.map.Follows s.map es) (hmiss : s'.missPush = s.missPush) : s'.Good where
  consistent := hf.consistent
  capacity_pos := by
    rw [hf.capacity_eq]
    exact hs.capacity_pos
  missPush := by
    rw [hmiss]
    exact hs.missPush

/-- Changing what a session holds besides its map and its reaction keeps it good. -/
theorem Good.of_eq {s s' : Session κ} (hs : s.Good) (hmap : s'.map = s.map)
    (hmiss : s'.missPush = s.missPush) : s'.Good :=
  hs.of_follows (by rw [hmap]; exact hs.consistent.follows_self) hmiss

section Rules

variable {α β : Type} {s : Session κ} {Q : Prop}

/-- Run from `s`, `x` succeeds with an answer satisfying `P` and leaves a good session. -/
structure Completes (s : Session κ) (P : α → Prop) (x : SessionM κ α) : Prop where
  answer : ∃ a, (exec x s).1 = .ok a ∧ P a
  good : (exec x s).2.Good

/-- Run from `s`, `x` leaves a good session; a success answers with `P`; a failure has left
the map as it was, and `Q` holds. -/
structure Safe (s : Session κ) (Q : Prop) (P : α → Prop) (x : SessionM κ α) : Prop where
  good : (exec x s).2.Good
  fault : ∀ e, (exec x s).1 = .error e → (exec x s).2.map = s.map ∧ Q
  answer : ∀ a, (exec x s).1 = .ok a → P a

theorem Completes.of_exec {x y : SessionM κ α} {P : α → Prop} {s' : Session κ}
    (h : exec y s = exec x s') (hx : Completes s' P x) : Completes s P y where
  answer := by
    rw [h]
    exact hx.answer
  good := by
    rw [h]
    exact hx.good

theorem Safe.of_exec {x y : SessionM κ α} {P : α → Prop} {s' : Session κ}
    (h : exec y s = exec x s') (hmap : s'.map = s.map) (hx : Safe s' Q P x) : Safe s Q P y where
  good := by
    rw [h]
    exact hx.good
  fault e he := by
    rw [h] at he ⊢
    obtain ⟨hm, hq⟩ := hx.fault e he
    exact ⟨hm.trans hmap, hq⟩
  answer a ha := by
    rw [h] at ha
    exact hx.answer a ha

/-- What completes is safe, whatever the blame. -/
theorem Completes.safe {x : SessionM κ α} {P : α → Prop} (h : Completes s P x) :
    Safe s Q P x where
  good := h.good
  fault e he := by
    obtain ⟨a, ha, -⟩ := h.answer
    rw [ha] at he
    cases he
  answer a ha := by
    obtain ⟨b, hb, hP⟩ := h.answer
    rw [hb] at ha
    cases ha
    exact hP

theorem Completes.mono {x : SessionM κ α} {P P' : α → Prop} (h : Completes s P x)
    (hP : ∀ a, P a → P' a) : Completes s P' x := by
  obtain ⟨a, ha, hPa⟩ := h.answer
  exact ⟨⟨a, ha, hP a hPa⟩, h.good⟩

theorem Completes.pure (hs : s.Good) {P : α → Prop} {a : α} (ha : P a) :
    Completes s P (pure a) :=
  ⟨⟨a, rfl, ha⟩, hs⟩

theorem Completes.map {x : SessionM κ α} {f : α → β} {P : β → Prop}
    (h : Completes s (fun a => P (f a)) x) : Completes s P (f <$> x) := by
  obtain ⟨a, ha, hP⟩ := h.answer
  exact ⟨⟨f a, by simp [ha, Except.map], hP⟩, by simpa using h.good⟩

theorem Safe.map {x : SessionM κ α} {f : α → β} {P : β → Prop}
    (h : Safe s Q (fun a => P (f a)) x) : Safe s Q P (f <$> x) where
  good := by simpa using h.good
  fault e he := by
    cases hx : (exec x s).1 with
    | error e' => simpa using h.fault e' hx
    | ok a => simp [hx, Except.map] at he
  answer b hb := by
    cases hx : (exec x s).1 with
    | error e' => simp [hx, Except.map] at hb
    | ok a =>
      simp only [exec_map, hx, Except.map, Except.ok.injEq] at hb
      rw [← hb]
      exact h.answer a hx

/-- A first computation that completes, then a rest that completes. -/
theorem Completes.bind {x : SessionM κ α} {f : α → SessionM κ β} {R : α → Prop}
    {P : β → Prop} (hx : Completes s R x)
    (hf : ∀ a, (exec x s).1 = .ok a → R a → Completes (exec x s).2 P (f a)) :
    Completes s P (x >>= f) := by
  obtain ⟨a, ha, hR⟩ := hx.answer
  exact Completes.of_exec (by simp only [exec_bind, ha]) (hf a ha hR)

/-- A first computation with a known run, then a rest that completes. -/
theorem Completes.bind_exec {x : SessionM κ α} {f : α → SessionM κ β} {P : β → Prop}
    {a : α} {s' : Session κ} (hx : exec x s = (.ok a, s')) (hf : Completes s' P (f a)) :
    Completes s P (x >>= f) :=
  Completes.of_exec (by simp only [exec_bind, hx]) hf

/-- A first computation that completes, then a rest that completes from any good session. -/
theorem Completes.bind_good {x : SessionM κ α} {f : α → SessionM κ β} {R : α → Prop}
    {P : β → Prop} (hx : Completes s R x)
    (hf : ∀ a (t : Session κ), t.Good → R a → Completes t P (f a)) :
    Completes s P (x >>= f) :=
  hx.bind fun a _ hR => hf a _ hx.good hR

/-- A first computation that failed fails the whole, where it left off. -/
theorem Safe.bind_of_error {x : SessionM κ α} {f : α → SessionM κ β} {R : α → Prop}
    {P : β → Prop} (hx : Safe s Q R x) {e : String} (hr : (exec x s).1 = .error e) :
    Safe s Q P (x >>= f) := by
  have heq : exec (x >>= f) s = (.error e, (exec x s).2) := by simp only [exec_bind, hr]
  refine ⟨?_, fun e' he' => ?_, fun a ha => ?_⟩
  · rw [heq]
    exact hx.good
  · rw [heq] at he' ⊢
    exact hx.fault e hr
  · rw [heq] at ha
    cases ha

/-- A safe first computation that keeps the map, then a safe rest. -/
theorem Safe.bind_keep {x : SessionM κ α} {f : α → SessionM κ β} {R : α → Prop}
    {P : β → Prop} (hx : Safe s Q R x) (hmap : (exec x s).2.map = s.map)
    (hf : ∀ a, (exec x s).1 = .ok a → R a → Safe (exec x s).2 Q P (f a)) :
    Safe s Q P (x >>= f) := by
  cases hr : (exec x s).1 with
  | error e => exact hx.bind_of_error hr
  | ok a => exact Safe.of_exec (by simp only [exec_bind, hr]) hmap (hf a hr (hx.answer a hr))

/-- A final computation that only reads and may fail, with `Q` when it does. -/
theorem Safe.read (hs : s.Good) {x : SessionM κ α} {P : α → Prop} (hx : (exec x s).2 = s)
    (hfail : ∀ e, (exec x s).1 = .error e → Q) (hok : ∀ a, (exec x s).1 = .ok a → P a) :
    Safe s Q P x where
  good := by
    rw [hx]
    exact hs
  fault e he := ⟨by rw [hx], hfail e he⟩
  answer := hok

/-- A first computation that only reads and may fail, with `Q` when it does, then a safe
rest. -/
theorem Safe.bind_read (hs : s.Good) {x : SessionM κ α} {f : α → SessionM κ β}
    {P : β → Prop} (hx : (exec x s).2 = s) (hfail : ∀ e, (exec x s).1 = .error e → Q)
    (hok : ∀ a, (exec x s).1 = .ok a → Safe s Q P (f a)) : Safe s Q P (x >>= f) := by
  have hread : Safe s Q (fun _ => True) x := Safe.read hs hx hfail fun _ _ => trivial
  refine hread.bind_keep (by rw [hx]) fun a ha _ => ?_
  rw [hx]
  exact hok a ha

/-- A first computation with a known run that keeps the map, then a safe rest. -/
theorem Safe.bind_exec {x : SessionM κ α} {f : α → SessionM κ β} {P : β → Prop} {a : α}
    {s' : Session κ} (hx : exec x s = (.ok a, s')) (hmap : s'.map = s.map)
    (hf : Safe s' Q P (f a)) : Safe s Q P (x >>= f) :=
  Safe.of_exec (by simp only [exec_bind, hx]) hmap hf

/-- A safe start, then a rest that completes: a failure can only come from the start. -/
theorem Safe.bind_completes {x : SessionM κ α} {f : α → SessionM κ β} {R : α → Prop}
    {P : β → Prop} (hx : Safe s Q R x)
    (hf : ∀ a, (exec x s).1 = .ok a → R a → Completes (exec x s).2 P (f a)) :
    Safe s Q P (x >>= f) := by
  cases hr : (exec x s).1 with
  | error e => exact hx.bind_of_error hr
  | ok a =>
    exact (Completes.of_exec (by simp only [exec_bind, hr]) (hf a hr (hx.answer a hr))).safe

end Rules

/-! ## The building blocks -/

section Blocks

variable {α β : Type} {s : Session κ} {Q : Prop}

theorem Completes.get_bind {f : Session κ → SessionM κ α} {P : α → Prop}
    (h : Completes s P (f s)) : Completes s P (get >>= f) :=
  Completes.bind_exec (exec_get s) h

theorem Safe.get_bind {f : Session κ → SessionM κ α} {P : α → Prop} (h : Safe s Q P (f s)) :
    Safe s Q P (get >>= f) :=
  Safe.bind_exec (exec_get s) rfl h

/-- Using the cursor under a name fails only when there is none. -/
theorem Safe.held (hs : s.Good) {c : String} {f : Cursor → SessionM κ α} {P : α → Prop}
    (hnone : s.cursors.lookup c = none → Q)
    (hsome : ∀ cur, s.cursors.lookup c = some cur → Safe s Q P (f cur)) :
    Safe s Q P (held c >>= f) := by
  refine Safe.bind_read hs (by simp) (fun e he => hnone ?_) (fun cur hcur => hsome cur ?_)
  · cases hl : s.cursors.lookup c with
    | none => rfl
    | some cur => simp [hl, Cursor.held?, Except.mapError] at he
  · cases hl : s.cursors.lookup c with
    | none => simp [hl, Cursor.held?, Except.mapError] at hcur
    | some cur' =>
      simp only [exec_held, hl, Cursor.held?, Except.mapError, Except.ok.injEq] at hcur
      rw [hcur]

/-- An operation lifted into a step fails exactly when it faults. -/
theorem Safe.orFault_bind (hs : s.Good) {ε : Type} {msg : ε → String} {r : Except ε α}
    {f : α → SessionM κ β} {P : β → Prop} (hfail : ∀ e, r = .error e → Q)
    (hok : ∀ a, r = .ok a → Safe s Q P (f a)) : Safe s Q P (orFault msg r >>= f) := by
  cases r with
  | error e =>
    refine Safe.bind_read hs (by simp) (fun _ _ => hfail e rfl) (fun a ha => ?_)
    simp [Except.mapError] at ha
  | ok a =>
    refine Safe.bind_read hs (by simp) (fun e he => ?_) (fun a' ha => ?_)
    · simp [Except.mapError] at he
    · simp only [exec_orFault, Except.mapError, Except.ok.injEq] at ha
      exact hok a' (by rw [ha])

/-- A final lifted operation. -/
theorem Safe.orFault (hs : s.Good) {ε : Type} {msg : ε → String} {r : Except ε α}
    {P : α → Prop} (hfail : ∀ e, r = .error e → Q) (hok : ∀ a, r = .ok a → P a) :
    Safe s Q P (orFault msg r) := by
  refine Safe.read hs (by simp) (fun e he => ?_) (fun a ha => ?_)
  · cases r with
    | error e' => exact hfail e' rfl
    | ok a => simp [Except.mapError] at he
  · cases r with
    | error e' => simp [Except.mapError] at ha
    | ok a' =>
      simp only [exec_orFault, Except.mapError, Except.ok.injEq] at ha
      exact hok a (by rw [ha])

/-- A fault raised on purpose, blamed on `Q`. -/
theorem Safe.throw (hs : s.Good) {P : α → Prop} {e : String} (hQ : Q) :
    Safe s Q P (throw e : SessionM κ α) :=
  Safe.read hs (by simp) (fun _ _ => hQ) (fun a ha => by simp at ha)

theorem Completes.orFault_bind {ε : Type} {msg : ε → String} {r : Except ε α}
    {f : α → SessionM κ β} {P : β → Prop} {a : α} (hr : r = .ok a)
    (hf : Completes s P (f a)) :
    Completes s P (orFault msg r >>= f) :=
  Completes.bind_exec (by simp [hr, Except.mapError]) hf

theorem Completes.readMap (hs : s.Good) {f : Lru (SomeIndex κ) κ String → Except ArenaFault α}
    {P : α → Prop} {a : α} (hr : f s.map = .ok a) (ha : P a) : Completes s P (readMap f) :=
  ⟨⟨a, by simp [hr, Except.mapError], ha⟩, by simpa using hs⟩

/-- A map operation that succeeds with a map that follows completes. -/
theorem Completes.onMap (hs : s.Good)
    {f : Lru (SomeIndex κ) κ String → Except ArenaFault (Traced (SomeIndex κ) κ String α)}
    {a : α} {m' : Lru (SomeIndex κ) κ String} {sigs : List (Signal κ String)}
    {es : List (Recency.Entry κ String)} (h : f s.map = .ok (a, m', sigs))
    (hf : m'.Follows s.map es) {P : α → Prop} (ha : P a) : Completes s P (onMap f) := by
  have hrun := exec_onMap_ok s h
  exact ⟨⟨a, by rw [hrun], ha⟩, by rw [hrun]; exact hs.of_follows hf rfl⟩

end Blocks

end Session

end RecencyMap
