import RecencyMap.Proofs.Session.Cursors

/-!
# Generations, ages and staleness

The generation of a map counts its structural changes (`Change`): one for every entry that
comes to the front, by insertion, by a push or a read of its key, or by a touch; one for every
entry removed, by an eviction, through a cursor, by a locked removal or by a drain. Over any
run of a script from an opened session:

* each step raises the generation by the changes of its operations, and a step that only reads
  the map leaves it as it was;
* every entry's age is the number of changes since the last one that brought its key to the
  front, and ages grow strictly from the most recent entry to the least recent;
* a cursor's staleness is the number of changes since it was made, as long as the steps that
  name it only touch or move it;
* no stamp of an entry and no generation a cursor was minted or stamped at is ahead of the
  generation, so neither age nor staleness is ever cut off at zero.
-/

namespace RecencyMap

namespace Arena

variable {κ ν : Type}

/-- The age of a live slot is the generation less its stamp. -/
theorem age?_of_node {a : Arena κ ν} {x : Slot} {n : Node κ ν} (h : a.node? x = some n) :
    a.age? x = .ok (a.generation - n.seq) := by
  simp [age?, seq?, live?, h, Functor.map, Except.map]

/-- Ages grow strictly from the head to the tail. -/
theorem Shape.ages_increase {a : Arena κ ν} {order : List Slot} (h : a.Shape order) :
    a.toList.Pairwise fun p q => ∃ x y, a.age? p.1 = .ok x ∧ a.age? q.1 = .ok y ∧ x < y := by
  have hseq := List.pairwise_map.mp h.seq_along_toList
  refine hseq.imp_of_mem fun {p q} hp hq hpq => ?_
  have hnp := h.node?_of_mem_toList hp
  have hnq := h.node?_of_mem_toList hq
  -- both stamps are at most the generation, so the later stamp is the smaller age
  have hp_le := h.stamp_le _ _ hnp
  have hq_le := h.stamp_le _ _ hnq
  exact ⟨_, _, age?_of_node hnp, age?_of_node hnq, by omega⟩

end Arena

namespace Lru

variable {ι κ ν : Type} [KeyIndex ι κ] {m : Lru ι κ ν}

omit [KeyIndex ι κ] in
/-- A new map is empty and has made no change. -/
theorem create?_fresh {c : Int} {ix : ι} (h : create? c ix = .ok m) :
    m.generation = 0 ∧ m.arena.toList = [] := by
  unfold create? at h
  split at h
  · cases h
  · split at h
    · cases h
    · cases h
      exact ⟨rfl, rfl⟩

end Lru

namespace Session

variable {κ : Type} [BEq κ] [Hashable κ]

/-- Every cursor a session holds was minted and stamped no later than the map's generation. -/
def Bounded (s : Session κ) : Prop :=
  ∀ c cur, s.cursors.lookup c = some cur →
    cur.minted ≤ s.map.generation ∧ cur.stamp ≤ s.map.generation

variable {shape : MapShape κ} {capacity : Int} {setup : SessionSetup κ} {registerTwice : Bool}
  {s t : Session κ}

/-- An opened session holds no cursor and an empty map that has made no change. -/
theorem open?_fresh (h : open? shape capacity setup registerTwice = .ok s) :
    s.cursors = [] ∧ s.map.generation = 0 ∧ s.map.arena.toList = [] := by
  unfold open? at h
  dsimp only at h
  split at h
  on_goal 1 =>
    rw [bind_eq_ok] at h
    obtain ⟨_, -, h⟩ := h
  all_goals
    rcases shape with _ | _ | cmp
    · simp only [bind_eq_ok, mapError_eq_ok] at h
      obtain ⟨ix, -, m, hm, h⟩ := h
      cases h
      exact ⟨rfl, Lru.create?_fresh hm⟩
    · cases h
    · simp only [bind_eq_ok, mapError_eq_ok] at h
      obtain ⟨ix, -, m, hm, h⟩ := h
      cases h
      exact ⟨rfl, Lru.create?_fresh hm⟩

theorem bounded_of_open? (h : open? shape capacity setup registerTwice = .ok s) : s.Bounded :=
  fun c cur hl => by simp [(open?_fresh h).1] at hl

variable [ToString κ] {listKeys : Bool} {st : MapStep κ} {rep : StepReport κ}
  {vs : List (Visit κ)}

/-- No step makes a cursor ahead of the generation. -/
theorem Good.step_bounded (hs : s.Good) (hb : s.Bounded) (h : s.step listKeys st = .ok (rep, t)) :
    t.Bounded := by
  intro c cur' hl'
  have hgen : s.map.generation ≤ t.map.generation := by
    rw [hs.step_generation h]
    exact Nat.le_add_right _ _
  -- a cursor kept from before the step, in a map that has only grown older
  have hkept : s.cursors.lookup c = some cur' →
      cur'.minted ≤ t.map.generation ∧ cur'.stamp ≤ t.map.generation := fun hl =>
    ⟨(hb c cur' hl).1.trans hgen, (hb c cur' hl).2.trans hgen⟩
  by_cases hname : c ∈ st.names
  · by_cases hcre : st.creates c = true
    · rcases hs.step_creates h hcre with hfresh | ⟨-, hcur, -⟩
      · have hf := hfresh cur' hl'
        exact ⟨hf.minted_eq.le, hf.stamp_eq.le⟩
      · exact hkept (hcur ▸ hl')
    · rcases (MapStep.mem_names st c).mp hname with hcre' | hste | hcon
      · exact absurd hcre' hcre
      · obtain ⟨hnone, hsome⟩ := hs.step_steers h hste
        cases hl : s.cursors.lookup c with
        | none => rw [hnone hl] at hl'; cases hl'
        | some cur =>
          obtain ⟨cur'', hcur'', hminted, hstamp⟩ := hsome cur hl
          rw [hl'] at hcur''
          cases hcur''
          refine ⟨hminted ▸ (hb c cur hl).1.trans hgen, ?_⟩
          rcases hstamp with hstamp | hstamp
          · exact hstamp ▸ (hb c cur hl).2.trans hgen
          · exact hstamp.le
      · obtain ⟨heir, towardsTail, hrem⟩ := (MapStep.consumes_iff st c).mp hcon
        -- the heir is not `c`, since the step does not make a cursor there
        have hheir : heir ≠ some c := fun hh => hcre (MapStep.creates_of_removal (hh ▸ hrem))
        obtain ⟨hlive, hdead⟩ := hs.step_consume h hrem
        cases hk : s.heldKey c with
        | none => exact hkept ((hdead hk).2 ▸ hl')
        | some k =>
          rw [hlive (by simp [hk]) hheir] at hl'
          cases hl'
  · exact hkept (step_lookup_of_not_mem h hname ▸ hl')

theorem Runs.bounded (h : Runs s vs t) (hs : s.Good) (hb : s.Bounded) : t.Bounded :=
  (h.invariant (fun hs hb hstep => hs.step_bounded hb hstep) hs hb).2

/-- A cursor that the steps of a run only touch or move stays under its name, minted when it
was. -/
theorem Runs.keeps_minted (h : Runs s vs t) (hs : s.Good) {c : String}
    (hc : ∀ v ∈ vs, c ∈ v.step.names → v.step.steers c = true) {cur : Cursor}
    (hl : s.cursors.lookup c = some cur) :
    ∃ cur', t.cursors.lookup c = some cur' ∧ cur'.minted = cur.minted := by
  induction h generalizing cur with
  | nil => exact ⟨cur, hl, rfl⟩
  | @cons s u w st rep vs listKeys hstep _ ih =>
    have hrest : ∀ v ∈ vs, c ∈ v.step.names → v.step.steers c = true :=
      fun v hv => hc v (List.mem_cons_of_mem _ hv)
    by_cases hname : c ∈ st.names
    · obtain ⟨-, hsome⟩ := hs.step_steers hstep (hc _ List.mem_cons_self hname)
      obtain ⟨cur', hcur', hminted, -⟩ := hsome cur hl
      obtain ⟨cur'', hcur'', hminted'⟩ := ih (hs.step hstep).1 hrest hcur'
      exact ⟨cur'', hcur'', hminted'.trans hminted⟩
    · exact ih (hs.step hstep).1 hrest ((step_lookup_of_not_mem hstep hname).trans hl)

/-- After a run from an opened session, the key of every entry was brought to the front by
some change of the run, and the entry's age is the number of changes since the last one that
did. -/
theorem Runs.age_of_opened (hopen : open? shape capacity setup registerTwice = .ok s)
    (hs : s.Good) (h : Runs s vs t) {p : Slot × Node κ String} (hp : p ∈ t.map.arena.toList) :
    ∃ pre c post, vs.flatMap Visit.changes = pre ++ c :: post ∧
      c.brings t.map.index.eqv p.2.key = true ∧
      (post.any fun d => d.brings t.map.index.eqv p.2.key) = false ∧
      t.map.arena.age? p.1 = .ok post.length := by
  obtain ⟨-, -, hempty⟩ := open?_fresh hopen
  obtain ⟨hpass, -, -⟩ := h.passes hs
  have hstamped := hpass.stamped
  rw [Visit.flatMap_changes] at hstamped
  obtain ⟨order, hshape⟩ := (hpass.consistent hs.consistent).shape
  have hnode := hshape.node?_of_mem_toList hp
  have hmem : Recency.Entry.ofCell p ∈ t.map.arena.view.entries := List.mem_map_of_mem hp
  -- the opened map has no entry, so the entry was brought to the front during the run
  rcases hstamped _ hmem with ⟨hany, hage⟩ | ⟨-, e, he, -⟩
  · rw [← hpass.eqv_eq] at hany hage
    obtain ⟨pre, c, post, hcs, hc, hpost, hafter⟩ :=
      ageFrom_eq_after_last t.map.index.eqv p.2.key hany 0
    refine ⟨pre, c, post, hcs, hc, hpost, ?_⟩
    rw [Arena.age?_of_node hnode, ← hafter]
    congr 1
    -- the stamp and the age add up to the generation
    simp only [Recency.Entry.ofCell] at hage
    show t.map.generation - p.2.seq = _
    omega
  · have hnil : s.map.arena.view.entries = [] := by
      show s.map.arena.toList.map Recency.Entry.ofCell = []
      rw [hempty]
      rfl
    rw [hnil] at he
    cases he

/-- Over a run of a script from an opened session, with lawful keys and no armed reaction to a
miss, the generation counts structural changes exactly:

* it counts every change of the run, and each step raises it by the changes of its operations:
  one for a push of a present key or of a new key with room, two for a push that evicts, one
  for a read that hits, for a touch and for each entry removed, none for a read that misses;
  a step that only reads the map leaves the map as it was;
* every entry's age is the number of changes since the last one that brought its key to the
  front, and ages grow strictly from the head to the tail;
* the staleness of a cursor is the number of changes since the step that made it, while the
  steps after it that name it only touch or move it;
* no cursor was minted or stamped, and no entry stamped, after the generation. -/
theorem generation_counts_changes (hshape : shape.Lawful) (hmiss : setup.missPush = none)
    (hopen : open? shape capacity setup registerTwice = .ok s) (h : Runs s vs t) :
    t.map.generation = (vs.flatMap Visit.changes).length ∧
    (∀ v ∈ vs, v.after.map.generation = v.before.map.generation + v.changes.length ∧
      (v.step.mutates = false → v.after.map = v.before.map)) ∧
    (∀ p ∈ t.map.arena.toList, ∃ pre c post, vs.flatMap Visit.changes = pre ++ c :: post ∧
      c.brings t.map.index.eqv p.2.key = true ∧
      (post.any fun d => d.brings t.map.index.eqv p.2.key) = false ∧
      t.map.arena.age? p.1 = .ok post.length) ∧
    t.map.arena.toList.Pairwise (fun p q => ∃ x y, t.map.arena.age? p.1 = .ok x ∧
      t.map.arena.age? q.1 = .ok y ∧ x < y) ∧
    (∀ pre v post c, vs = pre ++ v :: post → v.step.creates c = true → Calm v.report.reply →
      (∀ w ∈ post, c ∈ w.step.names → w.step.steers c = true) →
      ∀ cur, v.after.cursors.lookup c = some cur →
        ∃ cur', t.cursors.lookup c = some cur' ∧
          cur'.staleness t.map = (post.flatMap Visit.changes).length) ∧
    t.Bounded ∧ (∀ p ∈ t.map.arena.toList, p.2.seq ≤ t.map.generation) := by
  have hs : s.Good := good_of_open? hshape hmiss hopen
  obtain ⟨order, hshape'⟩ := (h.good hs).consistent.shape
  refine ⟨?_, fun v hv => ?_, fun p hp => h.age_of_opened hopen hs hp, hshape'.ages_increase,
    fun pre v post c hvs hcre hcalm hsteer cur hl => ?_, h.bounded hs (bounded_of_open? hopen),
    fun p hp => hshape'.stamp_le _ _ (hshape'.node?_of_mem_toList hp)⟩
  · rw [h.generation_eq hs, (open?_fresh hopen).2.1, Nat.zero_add]
  · obtain ⟨hgood, -, listKeys, hstep⟩ := h.visit hs hv
    exact ⟨hgood.step_generation hstep, step_map_of_reads hstep⟩
  · -- the cursor is fresh after the step that made it, and only touches and moves follow
    rw [hvs] at h
    obtain ⟨hpre, ⟨listKeys, hstep⟩, hpost⟩ := h.split_visit
    have hbefore := hpre.good hs
    have hfresh := hbefore.step_creates_calm hstep hcre hcalm cur hl
    have hafter := (hbefore.step hstep).1
    obtain ⟨cur', hcur', hminted⟩ := hpost.keeps_minted hafter hsteer hl
    refine ⟨cur', hcur', ?_⟩
    rw [Cursor.staleness, hpost.generation_eq hafter, hminted, hfresh.minted_eq]
    omega

/-- The witness: a script of five steps on an ordered map of capacity two over integer keys,
with no observer, loader, registry or reaction. -/
theorem generation_counts_changes_five_steps :
    ∃ (s : Session Int) (vs : List (Visit Int)) (t : Session Int),
      (MapShape.ordered (some compare) : MapShape Int).Lawful ∧
      ({ observers := ⟨false, false, false, false⟩, loader := none, naming := none,
         missPush := none } : SessionSetup Int).missPush = none ∧
      open? (.ordered (some compare)) 2
        ({ observers := ⟨false, false, false, false⟩, loader := none, naming := none,
           missPush := none } : SessionSetup Int) false = .ok s ∧
      Runs s vs t ∧
      vs.map Visit.step = [.push 1 "a", .push 2 "b", .get 1, .entry 1 "c", .cTouch "c"] ∧
      t.map.generation = (vs.flatMap Visit.changes).length := by
  have hlaw := MapShape.lawful_ordered_compare
  have hok : ((open? (.ordered (some compare) : MapShape Int) 2
      ({ observers := ⟨false, false, false, false⟩, loader := none, naming := none,
         missPush := none } : SessionSetup Int) false).toOption.map fun s =>
      (s.run false [.push 1 "a", .push 2 "b", .get 1, .entry 1 "c", .cTouch "c"]).isOk) =
      some true := by
    decide +kernel
  cases hopen : open? (.ordered (some compare) : MapShape Int) 2
      ({ observers := ⟨false, false, false, false⟩, loader := none, naming := none,
         missPush := none } : SessionSetup Int) false with
  | error e =>
    rw [hopen] at hok
    cases hok
  | ok s =>
    rw [hopen] at hok
    cases hrun : s.run false [.push 1 "a", .push 2 "b", .get 1, .entry 1 "c", .cTouch "c"] with
    | error e =>
      simp [hrun, Except.toOption, Except.isOk, Except.toBool] at hok
    | ok reports =>
      obtain ⟨vs, t, hvs, hsteps, -⟩ := Runs.of_run hrun
      exact ⟨s, vs, t, hlaw, rfl, rfl, hvs, hsteps,
        (generation_counts_changes hlaw rfl hopen hvs).1⟩

end Session

end RecencyMap
