import RecencyMap.Proofs.Session.Effects
import RecencyMap.Proofs.Session.Invariant

/-!
# Runs of a script

A run keeps every step of a script as it ran: the session it ran from, the step, and its
report. Facts about whole scripts are proved over runs, from facts about one step: a good
session stays good, the operations of the steps chain into one pass over the map
(`Runs.passes`), and each report carries exactly the events of its step's operations
(`Runs.visit`). A script that `Session.run` completes is such a run (`Runs.of_run`).
-/

namespace RecencyMap

namespace Session

variable {κ : Type} [BEq κ] [Hashable κ]

/-- One step as it ran: the session it ran from, the step, its report and the session it
left. -/
structure Visit (κ : Type) [BEq κ] [Hashable κ] where
  before : Session κ
  step : MapStep κ
  report : StepReport κ
  after : Session κ

variable [ToString κ]

/-- A run from `s` to `t` through the visits `vs`, each step run from where the one before
left off. Whether a step lists the keys after it is the script's choice, step by step. -/
inductive Runs : Session κ → List (Visit κ) → Session κ → Prop
  | nil (s : Session κ) : Runs s [] s
  | cons {s t u : Session κ} {st : MapStep κ} {rep : StepReport κ} {vs : List (Visit κ)}
      (listKeys : Bool) : s.step listKeys st = .ok (rep, t) → Runs t vs u →
      Runs s (⟨s, st, rep, t⟩ :: vs) u

/-- The map operations a visit performs, read off the session it ran from. -/
def Visit.ops (v : Visit κ) : List (MapOp κ String) := v.before.opsOf v.step

/-- The structural changes a visit makes. -/
def Visit.changes (v : Visit κ) : List (Change κ) := v.ops.flatMap MapOp.changes

theorem Visit.flatMap_changes (vs : List (Visit κ)) :
    (vs.flatMap Visit.ops).flatMap MapOp.changes = vs.flatMap Visit.changes := by
  rw [List.flatMap_assoc]
  rfl

/-- A step that runs leaves the session its body leaves, run from the session with the events
cleared, and replies with the body's answer or the text of its fault. -/
theorem step_eq_ok {s t : Session κ} {listKeys : Bool} {st : MapStep κ} {rep : StepReport κ}
    (h : s.step listKeys st = .ok (rep, t)) :
    t = (exec (perform st) { s with events := #[] }).2 ∧
      rep.reply = match (exec (perform st) { s with events := #[] }).1 with
        | .ok a => a
        | .error message => .panicked message := by
  unfold Session.step at h
  cases hr : s.refusal? st with
  | some r => simp [hr] at h
  | none =>
    have hrun : ((perform st).run { s with events := #[] }).run =
        exec (perform st) { s with events := #[] } := rfl
    simp only [hr, hrun] at h
    cases hp : exec (perform st) { s with events := #[] } with
    | mk r u =>
    simp only [hp, Except.ok.injEq, Prod.mk.injEq] at h
    obtain ⟨rfl, rfl⟩ := h
    exact ⟨rfl, rfl⟩

/-- A step whose reply is no fault ran its body to an answer. -/
theorem exec_of_calm {s t : Session κ} {listKeys : Bool} {st : MapStep κ} {rep : StepReport κ}
    (h : s.step listKeys st = .ok (rep, t)) (hcalm : Calm rep.reply) :
    ∃ a, exec (perform st) { s with events := #[] } = (.ok a, t) := by
  obtain ⟨ht, hrep⟩ := step_eq_ok h
  cases hp : exec (perform st) { s with events := #[] } with
  | mk r u =>
  rw [hp] at ht hrep
  cases r with
  | ok a => exact ⟨a, by rw [ht]⟩
  | error message =>
    simp only at hrep
    rw [Calm, hrep] at hcalm
    cases hcalm

namespace Runs

variable {s t u : Session κ} {vs ws : List (Visit κ)}

theorem append (h : Runs s vs t) (h' : Runs t ws u) : Runs s (vs ++ ws) u := by
  induction h with
  | nil => exact h'
  | cons listKeys hstep _ ih => exact .cons listKeys hstep (ih h')

/-- A run through two stretches of visits passes a session between them. -/
theorem split (h : Runs s (vs ++ ws) u) : ∃ t, Runs s vs t ∧ Runs t ws u := by
  induction vs generalizing s with
  | nil => exact ⟨s, .nil s, h⟩
  | cons v vs ih =>
    cases h with
    | cons listKeys hstep hrest =>
      obtain ⟨t, h1, h2⟩ := ih hrest
      exact ⟨t, .cons listKeys hstep h1, h2⟩

/-- A run through a visit passes the session the visit ran from and the one it left. -/
theorem split_visit {pre post : List (Visit κ)} {v : Visit κ} (h : Runs s (pre ++ v :: post) u) :
    Runs s pre v.before ∧ (∃ listKeys, v.before.step listKeys v.step = .ok (v.report, v.after)) ∧
      Runs v.after post u := by
  obtain ⟨t, h1, h2⟩ := h.split
  cases h2 with
  | cons listKeys hstep hrest => exact ⟨h1, ⟨listKeys, hstep⟩, hrest⟩

/-- A run of one visit is one step. -/
theorem single_iff {v : Visit κ} :
    Runs s [v] t ↔ v.before = s ∧ v.after = t ∧
      ∃ listKeys, s.step listKeys v.step = .ok (v.report, t) := by
  constructor
  · rintro (_ | ⟨listKeys, hstep, hrest⟩)
    cases hrest
    exact ⟨rfl, rfl, listKeys, hstep⟩
  · rintro ⟨hb, ha, listKeys, hstep⟩
    obtain ⟨before, st, rep, after⟩ := v
    cases hb
    cases ha
    exact .cons listKeys hstep (.nil _)

/-- What every step from a good session keeps holds at the end of a run from a good session
where it holds, and the run stays good. -/
theorem invariant {P : Session κ → Prop}
    (hstep : ∀ {s t : Session κ} {listKeys : Bool} {st : MapStep κ} {rep : StepReport κ},
      s.Good → P s → s.step listKeys st = .ok (rep, t) → P t)
    (h : Runs s vs t) (hs : s.Good) (hP : P s) : t.Good ∧ P t := by
  induction h with
  | nil => exact ⟨hs, hP⟩
  | cons listKeys hstep' _ ih => exact ih (hs.step hstep').1 (hstep hs hP hstep')

theorem good (h : Runs s vs t) (hs : s.Good) : t.Good :=
  (h.invariant (P := fun _ => True) (fun _ _ _ => trivial) hs trivial).1

/-- Each visit of a run from a good session is one step, from a good session with the setup
the run started with. -/
theorem visit (h : Runs s vs t) (hs : s.Good) {v : Visit κ} (hv : v ∈ vs) :
    v.before.Good ∧ v.before.setup = s.setup ∧
      ∃ listKeys, v.before.step listKeys v.step = .ok (v.report, v.after) := by
  induction h with
  | nil => cases hv
  | @cons s t u st rep vs listKeys hstep _ ih =>
    rcases List.mem_cons.mp hv with rfl | hv
    · exact ⟨hs, rfl, listKeys, hstep⟩
    · obtain ⟨hgood, hsetup, hrun⟩ := ih (hs.step hstep).1 hv
      exact ⟨hgood, hsetup.trans ((hs.step_does hstep).2.2.1), hrun⟩

/-- The operations of the visits of a run from a good session, one after another, lead from
its map to the map it ends with, each as documented; the setup and the armed reaction stay. -/
theorem passes (h : Runs s vs t) (hs : s.Good) :
    s.map.Passes (vs.flatMap Visit.ops) t.map ∧ t.setup = s.setup ∧ t.missPush = s.missPush := by
  induction h with
  | nil => exact ⟨.nil _, rfl, rfl⟩
  | cons listKeys hstep _ ih =>
    obtain ⟨hpass, -, hset, hmiss⟩ := hs.step_does hstep
    obtain ⟨hpass', hset', hmiss'⟩ := ih (hs.step hstep).1
    exact ⟨hpass.append hpass', hset'.trans hset, hmiss'.trans hmiss⟩

/-- Over a run from a good session the generation counts the structural changes of the
visits. -/
theorem generation_eq (h : Runs s vs t) (hs : s.Good) :
    t.map.generation = s.map.generation + (vs.flatMap Visit.changes).length := by
  rw [(h.passes hs).1.generation_eq, Visit.flatMap_changes]

end Runs

/-- A script that `run` completes from `s` is a run from `s` whose visits have the script's
steps and the reports `run` gives. -/
theorem Runs.of_run {listKeys : Bool} {s : Session κ} {steps : List (MapStep κ)}
    {reports : List (StepReport κ)} (h : s.run listKeys steps = .ok reports) :
    ∃ vs t, Runs s vs t ∧ vs.map Visit.step = steps ∧ vs.map Visit.report = reports := by
  induction steps generalizing s reports with
  | nil =>
    simp only [run, Except.ok.injEq] at h
    exact ⟨[], s, .nil s, rfl, h⟩
  | cons st rest ih =>
    simp only [run, bind_eq_ok] at h
    obtain ⟨⟨rep, t⟩, hstep, reps, hrest, h⟩ := h
    obtain ⟨vs, u, hrun, hsteps, hreps⟩ := ih hrest
    simp only [pure, Except.pure, Except.ok.injEq] at h
    refine ⟨⟨s, st, rep, t⟩ :: vs, u, .cons listKeys hstep hrun, by simp [hsteps], ?_⟩
    simp [hreps, ← h]

/-- A run from a session a script reaches ends at a session the script reaches. -/
theorem Runs.reachable {shape : MapShape κ} {capacity : Int} {setup : SessionSetup κ}
    {s t : Session κ} {vs : List (Visit κ)} (h : Runs s vs t)
    (hs : Reachable shape capacity setup s) : Reachable shape capacity setup t := by
  induction h with
  | nil => exact hs
  | cons listKeys hstep _ ih => exact ih (.step listKeys _ hs hstep)

end Session

end RecencyMap
