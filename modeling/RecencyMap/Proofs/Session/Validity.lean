import RecencyMap.Proofs.Session.Cursors

/-!
# When a cursor is valid

A cursor reports itself valid while the map's generation equals its stamp and its slot is live.
Its stamp is the generation when it was made, and each touch through it stamps it again.

Follow a cursor from the step that made it, over a run that spares its name (every step that
stores or clears a cursor under the name touches, moves or removes through it, handing the
neighbour of a removal to another name) and in which no touch through it comes after a change
made behind its back. At the end of such a run the cursor is valid exactly when nothing was
removed through it and every change to the map was made through it; and while it is valid,
every slot holds the key and value it held when the cursor was made, so the cursor stands on the
entry it was made at or moved to.

The proof follows the cursor through three states: tracking (stamped with the generation, at a
live slot, every slot as it was), stale (stamped before the generation, or gone), and gone (its
name holds nothing). Tracking turns stale at a change behind its back and gone at a removal
through it; stale and gone last.

A removal through the cursor consumes it, so it is not valid although every change was its own.
The condition on touches excludes a defect: a touch stamps the cursor afresh without asking
whether the map changed behind its back, so after such a change a touch makes the cursor valid
again, and its slot may by then hold an unrelated key (`cursor_valid_not_own_changes`). Validity
is meant to say that nothing changed other than through the cursor; the touch breaks that.
-/

namespace RecencyMap

theorem Lru.live_eq_isSome_contents {ι κ ν : Type} (m : Lru ι κ ν) (x : Slot) :
    m.arena.live x = (m.contents x).isSome := by
  simp [Lru.contents, Arena.live]

namespace MapStep

variable {κ : Type}

/-- A step spares the cursor under `c` when it makes no new cursor there: a step that stores or
clears a cursor under `c` touches or moves the cursor there, or removes through it and hands the
neighbour to another name. -/
def Spares (c : String) (st : MapStep κ) : Prop :=
  c ∈ st.names → st.steers c = true ∨ (st.consumes c = true ∧ st.creates c = false)

theorem consumes_eq_false_of_not_mem {st : MapStep κ} {c : String} (hc : c ∉ st.names) :
    st.consumes c = false := by
  rw [mem_names] at hc
  simpa using fun h => hc (Or.inr (Or.inr h))

theorem consumes_eq_false_of_steers {st : MapStep κ} {c : String} (h : st.steers c = true) :
    st.consumes c = false := by
  rcases eq_of_steers h with rfl | rfl | rfl <;> rfl

/-- A removal through `c` that makes no new cursor there hands the neighbour to another name. -/
theorem heir_ne_of_removal {st : MapStep κ} {c : String} {heir : Option String}
    {towardsTail : Bool} (h : st.removal? = some (c, heir, towardsTail))
    (hcre : st.creates c = false) : heir ≠ some c := by
  rintro rfl
  rw [creates_of_removal h] at hcre
  cases hcre

end MapStep

namespace Session

variable {κ : Type} [BEq κ] [Hashable κ] [ToString κ]

/-! ## Three states of a cursor -/

/-- The cursor under `c` tracks `m₀`: it is stamped with the generation, stands on a live slot,
and every slot holds what it held in `m₀`. -/
def Tracks (u : Session κ) (c : String) (m₀ : Lru (SomeIndex κ) κ String) : Prop :=
  ∃ cur, u.cursors.lookup c = some cur ∧ cur.stamp = u.map.generation ∧
    u.map.arena.live cur.slot = true ∧ u.map.contents = m₀.contents

/-- The cursor under `c`, if there is one, is stamped before the generation. -/
def Stale (u : Session κ) (c : String) : Prop :=
  ∀ cur, u.cursors.lookup c = some cur → cur.stamp < u.map.generation

variable {u t : Session κ} {c : String} {m₀ : Lru (SomeIndex κ) κ String}

omit [ToString κ] in
theorem Tracks.valid (h : u.Tracks c m₀) : Cursor.valid (u.cursors.lookup c) u.map = true := by
  obtain ⟨cur, hl, hstamp, hlive, -⟩ := h
  simp [Cursor.valid, hl, hstamp, hlive]

omit [ToString κ] in
theorem Stale.valid (h : u.Stale c) : Cursor.valid (u.cursors.lookup c) u.map = false := by
  cases hl : u.cursors.lookup c with
  | none => rfl
  | some cur =>
    have hlt := h cur hl
    simp only [Cursor.valid, Bool.and_eq_false_iff, beq_eq_false_iff_ne]
    exact Or.inl (Nat.ne_of_gt hlt)

omit [ToString κ] in
/-- A cursor at a live slot holds a key. -/
theorem Good.heldKey_ne_none (hs : u.Good) {cur : Cursor} (hl : u.cursors.lookup c = some cur)
    (hlive : u.map.arena.live cur.slot = true) : u.heldKey c ≠ none := by
  rcases hs.cursor_cases c with ⟨hl', -⟩ | ⟨cur', hl', hdead, -⟩ | ⟨-, e, -, -, -, hk⟩
  · rw [hl] at hl'
    cases hl'
  · rw [hl] at hl'
    cases hl'
    rw [hlive] at hdead
    cases hdead
  · rw [hk]
    exact Option.some_ne_none _

/-! ## One step -/

section Step

variable {listKeys : Bool} {st : MapStep κ} {rep : StepReport κ}

/-- A step that leaves the name `c` alone keeps its cursor tracking when it changes nothing, and
leaves it stale when it changes the map. -/
theorem Good.step_tracks_of_not_mem (hs : u.Good) (h : u.step listKeys st = .ok (rep, t))
    (hc : c ∉ st.names) (htr : u.Tracks c m₀) :
    ((u.opsOf st).flatMap MapOp.changes = [] → t.Tracks c m₀) ∧
      ((u.opsOf st).flatMap MapOp.changes ≠ [] → t.Stale c) := by
  obtain ⟨cur, hl, hstamp, hlive, hcont⟩ := htr
  have hl' : t.cursors.lookup c = some cur := (step_lookup_of_not_mem h hc).trans hl
  refine ⟨fun hch => ?_, fun hch cur' hcur' => ?_⟩
  · have hmap := hs.step_map_of_changes h hch
    exact ⟨cur, hl', by rw [hmap, hstamp], by rw [hmap, hlive], by rw [hmap, hcont]⟩
  · rw [hl'] at hcur'
    cases hcur'
    have hgen := hs.step_generation h
    have hpos := List.length_pos_of_ne_nil hch
    omega

/-- Touching or moving the cursor under `c` keeps it tracking: a touch moves its entry to the
front and stamps it with the new generation, a move keeps the map and the stamp. -/
theorem Good.step_tracks_of_steers (hs : u.Good) (h : u.step listKeys st = .ok (rep, t))
    (hst : st.steers c = true) (htr : u.Tracks c m₀) : t.Tracks c m₀ := by
  obtain ⟨cur, hl, hstamp, hlive, hcont⟩ := htr
  rcases MapStep.eq_of_steers hst with rfl | hmove
  · obtain ⟨-, hcont', hcur⟩ := hs.step_touch_live h hl hlive
    refine ⟨_, hcur, rfl, ?_, hcont'.trans hcont⟩
    rw [Lru.live_eq_isSome_contents, hcont', ← Lru.live_eq_isSome_contents]
    exact hlive
  · obtain ⟨hmap, -, hsome⟩ := hs.step_move h hmove
    obtain ⟨cur', hcur', -, hstamp', hlive'⟩ := hsome cur hl
    exact ⟨cur', hcur', by rw [hstamp', hstamp, hmap], hlive' hlive, by rw [hmap, hcont]⟩

/-- Removing through the cursor under `c`, and handing the neighbour to another name, leaves
nothing under `c`. -/
theorem Good.step_tracks_of_consumes (hs : u.Good) (h : u.step listKeys st = .ok (rep, t))
    (hcons : st.consumes c = true) (hcre : st.creates c = false) (htr : u.Tracks c m₀) :
    t.cursors.lookup c = none := by
  obtain ⟨cur, hl, -, hlive, -⟩ := htr
  obtain ⟨heir, towardsTail, hrem⟩ := (MapStep.consumes_iff st c).mp hcons
  exact (hs.step_consume h hrem).1 (hs.heldKey_ne_none hl hlive)
    (MapStep.heir_ne_of_removal hrem hcre)

/-- A step that spares the name `c` leaves nothing under it when there was nothing. -/
theorem Good.step_lookup_none (hs : u.Good) (h : u.step listKeys st = .ok (rep, t))
    (hsp : st.Spares c) (hl : u.cursors.lookup c = none) : t.cursors.lookup c = none := by
  by_cases hc : c ∈ st.names
  · rcases hsp hc with hsteer | ⟨hcons, -⟩
    · exact (hs.step_steers h hsteer).1 hl
    · obtain ⟨heir, towardsTail, hrem⟩ := (MapStep.consumes_iff st c).mp hcons
      have hk : u.heldKey c = none := by simp [heldKey, hl]
      rw [((hs.step_consume h hrem).2 hk).2, hl]
  · rw [step_lookup_of_not_mem h hc, hl]

/-- A step that spares the name `c` and does not touch through it keeps its cursor stale: the
generation never falls, and only a touch stamps a cursor. -/
theorem Good.step_stale (hs : u.Good) (h : u.step listKeys st = .ok (rep, t))
    (hsp : st.Spares c) (htouch : st ≠ .cTouch c) (hst : u.Stale c) : t.Stale c := by
  have hgen : u.map.generation ≤ t.map.generation := by
    rw [hs.step_generation h]
    omega
  by_cases hc : c ∈ st.names
  · rcases hsp hc with hsteer | ⟨hcons, hcre⟩
    · have hmove := (MapStep.eq_of_steers hsteer).resolve_left htouch
      obtain ⟨hmap, hnone, hsome⟩ := hs.step_move h hmove
      intro cur' hcur'
      cases hl : u.cursors.lookup c with
      | none =>
        rw [hnone hl] at hcur'
        cases hcur'
      | some cur =>
        obtain ⟨cur'', hcur'', -, hstamp, -⟩ := hsome cur hl
        rw [hcur''] at hcur'
        cases hcur'
        rw [hstamp, hmap]
        exact hst cur hl
    · obtain ⟨heir, towardsTail, hrem⟩ := (MapStep.consumes_iff st c).mp hcons
      intro cur hl
      by_cases hk : u.heldKey c = none
      · obtain ⟨hmap, hcurs⟩ := (hs.step_consume h hrem).2 hk
        rw [hcurs] at hl
        rw [hmap]
        exact hst cur hl
      · rw [(hs.step_consume h hrem).1 hk (MapStep.heir_ne_of_removal hrem hcre)] at hl
        cases hl
  · intro cur hl
    rw [step_lookup_of_not_mem h hc] at hl
    exact Nat.lt_of_lt_of_le (hst cur hl) hgen

end Step

/-! ## Runs -/

namespace Runs

variable {ws : List (Visit κ)}

/-- Over a run that spares the name `c`, a name that holds nothing keeps holding nothing. -/
theorem lookup_none (h : Runs u ws t) (hu : u.Good) (hsp : ∀ w ∈ ws, w.step.Spares c)
    (hl : u.cursors.lookup c = none) : t.cursors.lookup c = none := by
  induction h with
  | nil => exact hl
  | cons listKeys hstep _ ih =>
    exact ih (hu.step hstep).1 (fun w hw => hsp w (List.mem_cons_of_mem _ hw))
      (hu.step_lookup_none hstep (hsp _ List.mem_cons_self) hl)

/-- Over a run that spares the name `c` and never touches through it, a stale cursor stays
stale. -/
theorem stale (h : Runs u ws t) (hu : u.Good) (hsp : ∀ w ∈ ws, w.step.Spares c)
    (hnt : ∀ w ∈ ws, w.step ≠ .cTouch c) (hst : u.Stale c) : t.Stale c := by
  induction h with
  | nil => exact hst
  | cons listKeys hstep _ ih =>
    exact ih (hu.step hstep).1 (fun w hw => hsp w (List.mem_cons_of_mem _ hw))
      (fun w hw => hnt w (List.mem_cons_of_mem _ hw))
      (hu.step_stale hstep (hsp _ List.mem_cons_self) (hnt _ List.mem_cons_self) hst)

/-- From a session where the cursor under `c` tracks `m₀`, over a run that spares its name and
touches through it only before any change behind its back, the cursor is valid at the end
exactly when no step removed through it and every change went through it; and then every slot
holds what it held in `m₀`. -/
theorem valid_iff_of_tracks (h : Runs u ws t) (hu : u.Good) (htr : u.Tracks c m₀)
    (hsp : ∀ w ∈ ws, w.step.Spares c)
    (htouch : ∀ pre w post, ws = pre ++ w :: post → w.step = .cTouch c →
      ∀ x ∈ pre, x.changes = [] ∨ c ∈ x.step.names) :
    (Cursor.valid (t.cursors.lookup c) t.map = true ↔
      ∀ w ∈ ws, w.step.consumes c = false ∧ (w.changes ≠ [] → c ∈ w.step.names)) ∧
    (Cursor.valid (t.cursors.lookup c) t.map = true → t.map.contents = m₀.contents) := by
  induction h with
  | nil =>
    have hvalid := htr.valid
    obtain ⟨cur, -, -, -, hcont⟩ := htr
    exact ⟨iff_of_true hvalid fun _ hw => absurd hw List.not_mem_nil, fun _ => hcont⟩
  | @cons u u' t st rep ws listKeys hstep hrest ih =>
    have hu' := (hu.step hstep).1
    have hsp' : ∀ w ∈ ws, w.step.Spares c := fun w hw => hsp w (List.mem_cons_of_mem _ hw)
    have htouch' : ∀ pre w post, ws = pre ++ w :: post → w.step = .cTouch c →
        ∀ x ∈ pre, x.changes = [] ∨ c ∈ x.step.names := fun pre w post hws hw x hx =>
      htouch (⟨u, st, rep, u'⟩ :: pre) w post (by rw [hws]; rfl) hw x (List.mem_cons_of_mem _ hx)
    by_cases hc : c ∈ st.names
    · rcases hsp _ List.mem_cons_self hc with hsteer | ⟨hcons, hcre⟩
      · -- a touch or a move through the cursor keeps it tracking, and passes the test
        obtain ⟨hiff, hcont⟩ := ih hu' (hu.step_tracks_of_steers hstep hsteer htr) hsp' htouch'
        refine ⟨?_, hcont⟩
        rw [hiff, List.forall_mem_cons]
        exact (and_iff_right ⟨MapStep.consumes_eq_false_of_steers hsteer, fun _ => hc⟩).symm
      · -- a removal through the cursor clears its name for good, and fails the test
        have hnone := hrest.lookup_none hu' hsp' (hu.step_tracks_of_consumes hstep hcons hcre htr)
        have hvalid : Cursor.valid (t.cursors.lookup c) t.map = false := by
          rw [hnone]
          rfl
        rw [hvalid]
        refine ⟨iff_of_false Bool.false_ne_true fun hall => ?_, fun hv => absurd hv Bool.false_ne_true⟩
        have hhead := (hall _ List.mem_cons_self).1
        rw [hcons] at hhead
        cases hhead
    · have hcons := MapStep.consumes_eq_false_of_not_mem hc
      by_cases hnil : (u.opsOf st).flatMap MapOp.changes = []
      · -- a step that changes nothing keeps the cursor tracking, and passes the test
        obtain ⟨hiff, hcont⟩ :=
          ih hu' ((hu.step_tracks_of_not_mem hstep hc htr).1 hnil) hsp' htouch'
        refine ⟨?_, hcont⟩
        rw [hiff, List.forall_mem_cons]
        exact (and_iff_right ⟨hcons, fun hne => absurd hnil hne⟩).symm
      · -- a change behind its back fails the test; no touch through the cursor follows, so it
        -- stays stale
        have hnt : ∀ w ∈ ws, w.step ≠ .cTouch c := by
          intro w hw hw'
          obtain ⟨pre, post, rfl⟩ := List.append_of_mem hw
          rcases htouch (⟨u, st, rep, u'⟩ :: pre) w post rfl hw' _ List.mem_cons_self with
            hnil' | hc'
          · exact hnil hnil'
          · exact hc hc'
        have hstale := hrest.stale hu' hsp' hnt ((hu.step_tracks_of_not_mem hstep hc htr).2 hnil)
        rw [hstale.valid]
        exact ⟨iff_of_false Bool.false_ne_true fun hall => hc ((hall _ List.mem_cons_self).2 hnil),
          fun hv => absurd hv Bool.false_ne_true⟩

end Runs

/-! ## Validity of a cursor over a run -/

variable {s : Session κ} {vs : List (Visit κ)} {listKeys : Bool} {st : MapStep κ}
  {rep : StepReport κ}

/-- A cursor made by a step that answers without a fault, and followed over a run that spares its
name and touches through it only before any change behind its back, is valid at the end exactly
when no step of the run removed through it and every change the run made went through it; and
while it is valid, every slot holds the key and value it held when the cursor was made, so the
cursor stands on the entry it was made at or moved to by its own moves. -/
theorem cursor_valid_iff_changes_through (hs : s.Good) (hmake : s.step listKeys st = .ok (rep, u))
    (hcre : st.creates c = true) (hcalm : Calm rep.reply) {cur₀ : Cursor}
    (hmade : u.cursors.lookup c = some cur₀) (h : Runs u vs t)
    (hsp : ∀ w ∈ vs, w.step.Spares c)
    (htouch : ∀ pre w post, vs = pre ++ w :: post → w.step = .cTouch c →
      ∀ x ∈ pre, x.changes = [] ∨ c ∈ x.step.names) :
    (Cursor.valid (t.cursors.lookup c) t.map = true ↔
      ∀ w ∈ vs, w.step.consumes c = false ∧ (w.changes ≠ [] → c ∈ w.step.names)) ∧
    (Cursor.valid (t.cursors.lookup c) t.map = true → t.map.contents = u.map.contents) := by
  have hfresh := hs.step_creates_calm hmake hcre hcalm cur₀ hmade
  exact h.valid_iff_of_tracks (hs.step hmake).1 ⟨cur₀, hmade, hfresh.stamp_eq, hfresh.live, rfl⟩
    hsp htouch

/-- The witness: on an ordered map of capacity three over integer keys holding one entry, a
cursor made at that entry and then touched through. -/
theorem cursor_valid_iff_changes_through_touched :
    ∃ (s u t : Session Int) (rep : StepReport Int) (cur₀ : Cursor) (vs : List (Visit Int)),
      s.Good ∧ s.step false (.entry 1 "c") = .ok (rep, u) ∧
      (MapStep.entry 1 "c" : MapStep Int).creates "c" = true ∧ Calm rep.reply ∧
      u.cursors.lookup "c" = some cur₀ ∧ Runs u vs t ∧ vs.map Visit.step = [.cTouch "c"] ∧
      (∀ w ∈ vs, w.step.Spares "c") ∧
      (∀ pre w post, vs = pre ++ w :: post → w.step = .cTouch "c" →
        ∀ x ∈ pre, x.changes = [] ∨ "c" ∈ x.step.names) ∧
      (Cursor.valid (t.cursors.lookup "c") t.map = true ↔
        ∀ w ∈ vs, w.step.consumes "c" = false ∧ (w.changes ≠ [] → "c" ∈ w.step.names)) := by
  have hlaw := MapShape.lawful_ordered_compare
  have hok : ((open? (.ordered (some compare) : MapShape Int) 3
      ({ observers := ⟨false, false, false, false⟩, loader := none, naming := none,
         missPush := none } : SessionSetup Int) false).toOption.bind fun s0 =>
      (s0.step false (.push 1 "a")).toOption.bind fun p1 =>
      (p1.2.step false (.entry 1 "c")).toOption.bind fun p2 =>
      (p2.2.step false (.cTouch "c")).toOption.map fun _ =>
        !p2.1.reply.isPanic && (p2.2.cursors.lookup "c").isSome) = some true := by
    decide +kernel
  cases h0 : open? (.ordered (some compare) : MapShape Int) 3
      ({ observers := ⟨false, false, false, false⟩, loader := none, naming := none,
         missPush := none } : SessionSetup Int) false with
  | error e => simp [h0, Except.toOption] at hok
  | ok s0 =>
  cases h1 : s0.step false (.push 1 "a") with
  | error e => simp [h0, h1, Except.toOption] at hok
  | ok p1 =>
  obtain ⟨rep1, s⟩ := p1
  cases h2 : s.step false (.entry 1 "c") with
  | error e => simp [h0, h1, h2, Except.toOption] at hok
  | ok p2 =>
  obtain ⟨rep, u⟩ := p2
  cases h3 : u.step false (.cTouch "c") with
  | error e => simp [h0, h1, h2, h3, Except.toOption] at hok
  | ok p3 =>
  obtain ⟨rep', t⟩ := p3
  simp only [h0, h1, h2, h3, Except.toOption, Option.bind_some, Option.map_some,
    Option.some.injEq, Bool.and_eq_true, Bool.not_eq_true'] at hok
  obtain ⟨hcalm, hsome⟩ := hok
  obtain ⟨cur₀, hcur₀⟩ := Option.isSome_iff_exists.mp hsome
  have hs : s.Good := ((good_of_open? hlaw rfl h0).step h1).1
  have hrun : Runs u [⟨u, .cTouch "c", rep', t⟩] t := .cons false h3 (.nil t)
  have hsp : ∀ w ∈ [(⟨u, .cTouch "c", rep', t⟩ : Visit Int)], w.step.Spares "c" := by
    simp [MapStep.Spares, MapStep.steers]
  -- the touch is the first step of the run, so nothing comes before it
  have htouch : ∀ pre w post, [(⟨u, .cTouch "c", rep', t⟩ : Visit Int)] = pre ++ w :: post →
      w.step = .cTouch "c" → ∀ x ∈ pre, x.changes = [] ∨ "c" ∈ x.step.names := by
    intro pre w post hpre _ x hx
    cases pre with
    | nil => cases hx
    | cons y ys => simp at hpre
  exact ⟨s, u, t, rep, cur₀, _, hs, h2, rfl, hcalm, hcur₀, hrun, rfl, hsp, htouch,
    (cursor_valid_iff_changes_through hs h2 rfl hcalm hcur₀ hrun hsp htouch).1⟩

/-- Validity is not "every change since the cursor was made went through it". On an ordered map
of capacity one over integer keys holding `1`, with a cursor made at `1`: a removal through the
cursor is its own change, yet leaves it invalid; and a push of `2` behind its back, which evicts
`1` into the cursor's slot, followed by a touch through it, leaves it valid while it reads `2`.
The second run is the defect of the touch: it stamps the cursor afresh whatever changed before. -/
theorem cursor_valid_not_own_changes :
    (∃ (s u t : Session Int) (rep : StepReport Int) (cur₀ : Cursor) (vs : List (Visit Int)),
      s.Good ∧ s.step false (.entry 1 "c") = .ok (rep, u) ∧ Calm rep.reply ∧
      u.cursors.lookup "c" = some cur₀ ∧ Runs u vs t ∧ vs.map Visit.step = [.cTake "c"] ∧
      (∀ w ∈ vs, w.changes ≠ [] → "c" ∈ w.step.names) ∧
      Cursor.valid (t.cursors.lookup "c") t.map = false) ∧
    (∃ (s u t : Session Int) (rep : StepReport Int) (cur₀ cur : Cursor) (vs : List (Visit Int)),
      s.Good ∧ s.step false (.entry 1 "c") = .ok (rep, u) ∧ Calm rep.reply ∧
      u.cursors.lookup "c" = some cur₀ ∧ cur₀.key u.map = .ok 1 ∧ Runs u vs t ∧
      vs.map Visit.step = [.push 2 "b", .cTouch "c"] ∧
      (∃ w ∈ vs, w.changes ≠ [] ∧ "c" ∉ w.step.names) ∧
      t.cursors.lookup "c" = some cur ∧ Cursor.valid (some cur) t.map = true ∧
      cur.key t.map = .ok 2) := by
  have hlaw := MapShape.lawful_ordered_compare
  -- at capacity one the push of `2` evicts `1` and reuses its slot
  have hok : ((open? (.ordered (some compare) : MapShape Int) 1
      ({ observers := ⟨false, false, false, false⟩, loader := none, naming := none,
         missPush := none } : SessionSetup Int) false).toOption.bind fun s0 =>
      (s0.step false (.push 1 "a")).toOption.bind fun p1 =>
      (p1.2.step false (.entry 1 "c")).toOption.bind fun p2 =>
      (p2.2.step false (.cTake "c")).toOption.bind fun p3 =>
      (p2.2.step false (.push 2 "b")).toOption.bind fun p4 =>
      (p4.2.step false (.cTouch "c")).toOption.map fun p5 =>
        !p2.1.reply.isPanic &&
          ((p2.2.cursors.lookup "c").map fun cur => decide (cur.key p2.2.map = .ok 1)) ==
            some true &&
          !Cursor.valid (p3.2.cursors.lookup "c") p3.2.map &&
          !((p2.2.opsOf (.push 2 "b")).flatMap MapOp.changes).isEmpty &&
          ((p5.2.cursors.lookup "c").map fun cur =>
            Cursor.valid (some cur) p5.2.map && decide (cur.key p5.2.map = .ok 2)) ==
            some true) = some true := by
    decide +kernel
  cases h0 : open? (.ordered (some compare) : MapShape Int) 1
      ({ observers := ⟨false, false, false, false⟩, loader := none, naming := none,
         missPush := none } : SessionSetup Int) false with
  | error e => simp [h0, Except.toOption] at hok
  | ok s0 =>
  cases h1 : s0.step false (.push 1 "a") with
  | error e => simp [h0, h1, Except.toOption] at hok
  | ok p1 =>
  obtain ⟨rep1, s⟩ := p1
  cases h2 : s.step false (.entry 1 "c") with
  | error e => simp [h0, h1, h2, Except.toOption] at hok
  | ok p2 =>
  obtain ⟨rep, u⟩ := p2
  cases h3 : u.step false (.cTake "c") with
  | error e => simp [h0, h1, h2, h3, Except.toOption] at hok
  | ok p3 =>
  obtain ⟨rep3, t3⟩ := p3
  cases h4 : u.step false (.push 2 "b") with
  | error e => simp [h0, h1, h2, h3, h4, Except.toOption] at hok
  | ok p4 =>
  obtain ⟨rep4, u4⟩ := p4
  cases h5 : u4.step false (.cTouch "c") with
  | error e => simp [h0, h1, h2, h3, h4, h5, Except.toOption] at hok
  | ok p5 =>
  obtain ⟨rep5, t5⟩ := p5
  simp only [h0, h1, h2, h3, h4, h5, Except.toOption, Option.bind_some, Option.map_some,
    Option.some.injEq, Bool.and_eq_true, Bool.not_eq_true', List.isEmpty_eq_false_iff,
    beq_iff_eq, Option.map_eq_some_iff, decide_eq_true_eq] at hok
  obtain ⟨⟨⟨⟨hcalm, cur₀, hcur₀, hkey₀⟩, htaken⟩, hpushed⟩, cur, hcur, hvalid, hkey⟩ := hok
  have hs : s.Good := ((good_of_open? hlaw rfl h0).step h1).1
  refine ⟨⟨s, u, t3, rep, cur₀, [⟨u, .cTake "c", rep3, t3⟩], hs, h2, hcalm, hcur₀,
    .cons false h3 (.nil t3), rfl, ?_, htaken⟩,
    ⟨s, u, t5, rep, cur₀, cur, [⟨u, .push 2 "b", rep4, u4⟩, ⟨u4, .cTouch "c", rep5, t5⟩], hs,
    h2, hcalm, hcur₀, hkey₀, .cons false h4 (.cons false h5 (.nil t5)), rfl,
    ⟨_, List.mem_cons_self, hpushed, by simp [MapStep.names]⟩, hcur, hvalid, hkey⟩⟩
  simp [MapStep.names]

end Session

end RecencyMap
