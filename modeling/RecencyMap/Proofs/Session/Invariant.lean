import RecencyMap.Proofs.Session.Steps
import RecencyMap.Proofs.Arena.Reachable

/-!
# The index and the arena agree in every session

A map keeps two structures: the arena's recency list and the index from keys to slots. Seen
through the map's own operations they agree (`Lru.Bijection`): the arena is well formed, the
index counts its entries, finds every live slot under the slot's key and finds only live slots
under keys it takes for theirs, and no two live slots hold keys it takes for each other.

Every session a script reaches keeps that agreement, whatever its steps do with cursors that
are consumed or stale and with walks, as long as the keys are lawful and no reaction to a miss
is armed. A step that faults leaves the map as it was, and only the steps `Session.mayPanic`
names can fault: those that use a consumed cursor or one at a dead slot, step a walk from a
dead slot, or load a key the loader panics on.
-/

namespace RecencyMap

theorem Arena.live_of_key?_ok {κ ν : Type} {a : Arena κ ν} {s : Slot} {k : κ}
    (h : a.key? s = .ok k) : a.live s = true := by
  cases hn : a.node? s with
  | none => simp [key?, live?, hn, Functor.map, Except.map] at h
  | some n => simp [live, hn]

namespace Lru

variable {κ ν : Type} [BEq κ] [Hashable κ]

/-- The index and the arena of a map agree: the arena is well formed for the map's capacity;
the index counts the live slots, finds each one under its key, finds only live slots under
keys it takes for theirs, and no two live slots hold keys it takes for each other. -/
structure Bijection (m : Lru (SomeIndex κ) κ ν) : Prop where
  wellFormed : m.arena.WellFormed m.capacity
  count_eq : KeyIndex.count m.index = m.size
  find_key : ∀ s k, m.arena.key? s = .ok k → m.find? k = some s
  key_of_find : ∀ k s, m.find? k = some s →
    ∃ k', m.arena.key? s = .ok k' ∧ m.index.eqv k' k = true
  distinct : ∀ s s' k k', m.arena.key? s = .ok k → m.arena.key? s' = .ok k' →
    m.index.eqv k k' = true → s = s'

variable {m : Lru (SomeIndex κ) κ ν}

/-- A live slot's key is the key of its entry. -/
theorem Consistent.entry_of_key? (hc : m.Consistent) {s : Slot} {k : κ}
    (h : m.arena.key? s = .ok k) : ∃ e ∈ m.arena.view.entries, e.slot = s ∧ e.key = k := by
  obtain ⟨e, he, rfl⟩ := hc.mem_of_live (Arena.live_of_key?_ok h)
  obtain ⟨order, hshape⟩ := hc.shape
  rw [hshape.key?_live he] at h
  exact ⟨e, he, rfl, Except.ok.inj h⟩

theorem Consistent.bijection (hc : m.Consistent) : m.Bijection where
  wellFormed := by
    obtain ⟨order, h⟩ := hc.shape
    exact h.wellFormed
  count_eq := by
    rw [hc.describes.count_eq, hc.size_eq]
  find_key s k h := by
    obtain ⟨e, he, rfl, rfl⟩ := hc.entry_of_key? h
    exact hc.describes.find_entry e he
  key_of_find k s h := by
    obtain ⟨e, he, rfl, hk⟩ := hc.find?_some h
    obtain ⟨order, hshape⟩ := hc.shape
    exact ⟨e.key, hshape.key?_live he, hk⟩
  distinct s s' k k' h h' hk := by
    obtain ⟨e, he, rfl, rfl⟩ := hc.entry_of_key? h
    obtain ⟨e', he', rfl, rfl⟩ := hc.entry_of_key? h'
    rw [hc.describes.eq_of_eqv he he' hk]

/-- A new map has room for an entry. -/
theorem capacity_pos_of_create? {c : Int} {ix : SomeIndex κ} (h : create? c ix = .ok m) :
    0 < m.capacity := by
  unfold create? at h
  split at h
  · cases h
  · next hlo =>
    split at h
    · cases h
    · cases h
      show 0 < c.toNat
      omega

end Lru

/-- The keys of a kind of map behave: `==` is an equivalence that hashing respects, or the
comparator is a total preorder. A map asked for without a comparator is never built. -/
def MapShape.Lawful {κ : Type} [BEq κ] [Hashable κ] : MapShape κ → Prop
  | .hashed => EquivBEq κ ∧ LawfulHashable κ
  | .ordered none => True
  | .ordered (some cmp) => Std.TransCmp cmp

/-- Integer keys under `compare` are lawful for an ordered map. -/
theorem MapShape.lawful_ordered_compare : (MapShape.ordered (some compare) : MapShape Int).Lawful :=
  show Std.TransCmp (compare : Int → Int → Ordering) from inferInstance

namespace Session

variable {κ : Type} [BEq κ] [Hashable κ] [ToString κ]

/-- The sessions a script reaches: one opened, then stepped any number of times. -/
inductive Reachable (shape : MapShape κ) (capacity : Int) (setup : SessionSetup κ) :
    Session κ → Prop
  | opened {s : Session κ} (registerTwice : Bool) :
      open? shape capacity setup registerTwice = .ok s → Reachable shape capacity setup s
  | step {s s' : Session κ} {report : StepReport κ} (listKeys : Bool) (st : MapStep κ) :
      Reachable shape capacity setup s → s.step listKeys st = .ok (report, s') →
      Reachable shape capacity setup s'

variable {shape : MapShape κ} {capacity : Int} {setup : SessionSetup κ}

theorem bind_eq_ok {ε α β : Type} {x : Except ε α} {f : α → Except ε β} {b : β} :
    x >>= f = .ok b ↔ ∃ a, x = .ok a ∧ f a = .ok b := by
  cases x with
  | error e => simp [bind, Except.bind]
  | ok a => simp [bind, Except.bind]

theorem mapError_eq_ok {ε ε' α : Type} {x : Except ε α} {f : ε → ε'} {a : α} :
    x.mapError f = .ok a ↔ x = .ok a := by
  cases x <;> simp [Except.mapError]

omit [ToString κ] in
/-- An opened session holds a new map over an empty index of its shape. -/
theorem open?_eq_ok {registerTwice : Bool} {s : Session κ}
    (h : open? shape capacity setup registerTwice = .ok s) :
    ∃ ix m, ((ix = .emptyHashed ∧ shape = .hashed) ∨
        ∃ cmp, ix = .emptyOrdered cmp ∧ shape = .ordered (some cmp)) ∧
      Lru.create? capacity ix = .ok m ∧ s.map = m ∧ s.missPush = setup.missPush := by
  unfold open? at h
  dsimp only at h
  -- registering the metric families can only refuse, so the build after it gave `s`
  split at h
  on_goal 1 =>
    rw [bind_eq_ok] at h
    obtain ⟨_, -, h⟩ := h
  all_goals
    -- the shape picks the index; then only the build can fail
    rcases shape with _ | _ | cmp
    · simp only [bind_eq_ok, mapError_eq_ok] at h
      obtain ⟨ix, hix, m, hm, h⟩ := h
      cases hix
      cases h
      exact ⟨_, m, Or.inl ⟨rfl, rfl⟩, hm, rfl, rfl⟩
    · cases h
    · simp only [bind_eq_ok, mapError_eq_ok] at h
      obtain ⟨ix, hix, m, hm, h⟩ := h
      cases hix
      cases h
      exact ⟨_, m, Or.inr ⟨cmp, rfl, rfl⟩, hm, rfl, rfl⟩

omit [ToString κ] in
/-- A session opened with lawful keys and no armed reaction is good. -/
theorem good_of_open? (hshape : shape.Lawful) (hmiss : setup.missPush = none)
    {registerTwice : Bool} {s : Session κ}
    (h : open? shape capacity setup registerTwice = .ok s) : s.Good := by
  obtain ⟨ix, m, hix, hcreate, hmap, hmiss'⟩ := open?_eq_ok h
  have hlaw : ix.Lawful := by
    rcases hix with ⟨rfl, rfl⟩ | ⟨cmp, rfl, rfl⟩
    · exact hshape
    · exact hshape
  have hfresh : ix = .emptyHashed ∨ ∃ cmp, ix = .emptyOrdered cmp := by
    rcases hix with ⟨rfl, -⟩ | ⟨cmp, rfl, -⟩
    · exact Or.inl rfl
    · exact Or.inr ⟨cmp, rfl⟩
  refine ⟨?_, ?_, ?_⟩
  · rw [hmap]
    exact Lru.consistent_create hcreate (SomeIndex.describes_empty hfresh hlaw)
  · rw [hmap]
    exact Lru.capacity_pos_of_create? hcreate
  · rw [hmiss', hmiss]

/-- One step from a good session leaves a good session; a step that faults has left the map
as it was, and is one that may fault there. -/
theorem Good.step {s s' : Session κ} (hs : s.Good) {listKeys : Bool} {st : MapStep κ}
    {report : StepReport κ} (h : s.step listKeys st = .ok (report, s')) :
    s'.Good ∧ ∀ msg, report.reply = .panicked msg → s'.map = s.map ∧ s.mayPanic st := by
  unfold Session.step at h
  cases hr : s.refusal? st with
  | some r => simp [hr] at h
  | none =>
    -- the body runs on the session with its events cleared, which is as good
    have hcleared : ({ s with events := #[] } : Session κ).Good := hs.of_eq rfl rfl
    have hsafe : Safe { s with events := #[] } (s.mayPanic st) Calm (perform st) :=
      hcleared.safe_perform st hr
    have hrun : ((perform st).run { s with events := #[] }).run =
        exec (perform st) { s with events := #[] } := rfl
    simp only [hr, hrun] at h
    cases hp : exec (perform st) { s with events := #[] } with
    | mk r t =>
    simp only [hp, Except.ok.injEq, Prod.mk.injEq] at h
    obtain ⟨rfl, rfl⟩ := h
    refine ⟨by simpa [hp] using hsafe.good, fun msg hmsg => ?_⟩
    cases r with
    | ok a =>
      -- an answer is never a fault's text
      have hcalm : Calm a := hsafe.answer a (by rw [hp])
      simp only at hmsg
      rw [hmsg] at hcalm
      cases hcalm
    | error e => simpa [hp] using hsafe.fault e (by rw [hp])

theorem Reachable.good (hshape : shape.Lawful) (hmiss : setup.missPush = none) {s : Session κ}
    (hs : Reachable shape capacity setup s) : s.Good := by
  induction hs with
  | opened registerTwice h => exact good_of_open? hshape hmiss h
  | step listKeys st _ h ih => exact (ih.step h).1

/-- Every session a script reaches, from lawful keys and with no armed reaction to a miss,
holds a map whose index and arena agree; and a step from it that faults leaves the map as it
was and is one that uses a consumed cursor or one at a dead slot, steps a walk from a dead
slot, or loads a key the loader panics on. -/
theorem reachable_bijection (hshape : shape.Lawful) (hmiss : setup.missPush = none)
    {s : Session κ} (hs : Reachable shape capacity setup s) :
    s.map.Bijection ∧ ∀ listKeys st report s', s.step listKeys st = .ok (report, s') →
      ∀ msg, report.reply = .panicked msg → s'.map = s.map ∧ s.mayPanic st := by
  have hgood := hs.good hshape hmiss
  exact ⟨hgood.consistent.bijection, fun _ _ _ _ h => (hgood.step h).2⟩

/-- The witness: a session over natural keys with a hash map of capacity two, just opened, with
a counting observer and no loader, registry or reaction. -/
theorem reachable_bijection_opened :
    (MapShape.hashed : MapShape Nat).Lawful ∧
      ({ observers := ⟨true, false, false, false⟩, loader := none, naming := none,
         missPush := none } : SessionSetup Nat).missPush = none ∧
      ∃ s : Session Nat, Reachable .hashed 2
          ({ observers := ⟨true, false, false, false⟩, loader := none, naming := none,
             missPush := none } : SessionSetup Nat) s ∧
        s.map.Bijection ∧ ∀ listKeys st report s', s.step listKeys st = .ok (report, s') →
          ∀ msg, report.reply = .panicked msg → s'.map = s.map ∧ s.mayPanic st :=
  have hlaw : (MapShape.hashed : MapShape Nat).Lawful := ⟨inferInstance, inferInstance⟩
  have hs : Reachable .hashed 2
      ({ observers := ⟨true, false, false, false⟩, loader := none, naming := none,
         missPush := none } : SessionSetup Nat) _ := .opened false rfl
  ⟨hlaw, rfl, _, hs, reachable_bijection hlaw rfl hs⟩

end Session

end RecencyMap
