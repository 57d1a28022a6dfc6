import RecencyMap.Proofs.Loading.Interleaved

/-!
# Loads of one key are coalesced

Over every interleaving of read-or-load callers of one key, with other callers' calls on the
map and cancellations of contexts in between:

* at most one loader call for the key runs at any time: a caller only loads while it leads the
  flight in the table, and the table holds one flight for the key;
* once a loader's value is pushed, no loader is called while the key stays in the map: the
  pusher was the only leader, and a later leader reads the key again before loading;
* every caller's answer rests on something: a value it read from the map, the published result
  of the flight it led or followed (a value read or loaded, or the loader's failure), its own
  cancelled context, or the missing loader.

All three follow from one inductive invariant (`Loads.Inv`): the map stays consistent; each
caller that leads a flight leads the flight in the table, which names it and has no result
until it publishes; numbers not yet given to a flight name none; and every answer rests on what
`Answer.Holds` says.
-/

namespace RecencyMap

/-! ## Reads and pushes of a consistent map -/

theorem Naive.get_fst {κ ν : Type} (eqv : κ → κ → Bool) (ps : List (κ × ν)) (k : κ) :
    (Naive.get eqv ps k).1 = (Naive.find? eqv ps k).map Prod.snd := by
  unfold Naive.get
  split <;> simp_all

/-- A push leaves a pair for the key in front, with the pushed value. -/
theorem Naive.push_front {κ ν : Type} (eqv : κ → κ → Bool) (cap : Nat) (ps : List (κ × ν))
    (k : κ) (v : ν) (hk : eqv k k = true) :
    ∃ x rest, (Naive.push eqv cap ps k v).2 = (x, v) :: rest ∧ eqv x k = true := by
  unfold Naive.push
  split
  · rename_i stored old hfind
    exact ⟨stored, _, rfl, by simpa using List.find?_some hfind⟩
  · split
    · exact ⟨k, _, rfl, hk⟩
    · split
      · exact ⟨k, _, rfl, hk⟩
      · exact ⟨k, _, rfl, hk⟩

namespace Lru

variable {κ ν : Type} [BEq κ] [Hashable κ] {m m' : Lru (SomeIndex κ) κ ν} {k : κ}

theorem Consistent.get_follows (hc : m.Consistent) {r : Option ν} {sigs : List (Signal κ ν)}
    (h : m.get k = .ok (r, m', sigs)) :
    (∃ es, m'.Follows m es) ∧ r = (Naive.find? m.index.eqv m.toList k).map Prod.snd := by
  obtain ⟨m'', sigs', es, hget, hf, -⟩ := hc.get_naive k
  rw [hget] at h
  simp only [Except.ok.injEq, Prod.mk.injEq] at h
  obtain ⟨hr, rfl, -⟩ := h
  exact ⟨⟨es, hf⟩, by rw [← hr, Naive.get_fst]⟩

/-- A read that finds a value returns what the map holds for the key. -/
theorem Consistent.peek_of_get (hc : m.Consistent) {v : ν} {sigs : List (Signal κ ν)}
    (h : m.get k = .ok (some v, m', sigs)) : m.peek k = .ok (some v) := by
  rw [hc.peek_naive, ← (hc.get_follows h).2]

/-- A read that finds nothing finds a map without the key. -/
theorem Consistent.contains_of_get_none (hc : m.Consistent) {sigs : List (Signal κ ν)}
    (h : m.get k = .ok (none, m', sigs)) : m.contains k = false := by
  have hr := (hc.get_follows h).2
  rw [hc.contains_naive]
  cases hfind : Naive.find? m.index.eqv m.toList k with
  | none => rfl
  | some p =>
    rw [hfind] at hr
    cases hr

/-- After a push the map holds the pushed value for the key. -/
theorem Consistent.push_stores (hc : m.Consistent) (hcap : 0 < m.capacity) {v : ν}
    {p : Pushed κ ν} {sigs : List (Signal κ ν)} (h : m.push k v = .ok (p, m', sigs)) :
    (∃ es, m'.Follows m es) ∧ m'.peek k = .ok (some v) ∧ m'.contains k = true := by
  obtain ⟨m'', sigs', es, hpush, hf, hes⟩ := hc.push_naive hcap k v
  rw [hpush] at h
  simp only [Except.ok.injEq, Prod.mk.injEq] at h
  obtain ⟨-, rfl, -⟩ := h
  obtain ⟨x, rest, hfront, hx⟩ :=
    Naive.push_front m.index.eqv m.capacity m.toList k v (SomeIndex.eqv_refl hc.describes.lawful k)
  -- the pair in front is the one found for the key
  have hfind : Naive.find? m''.index.eqv m''.toList k = some (x, v) := by
    rw [toList_eq, hf.entries_eq, hes, hfront, hf.eqv_eq]
    simp [Naive.find?, hx]
  refine ⟨⟨es, hf⟩, ?_, ?_⟩
  · rw [hf.consistent.peek_naive, hfind]
    rfl
  · rw [hf.consistent.contains_naive, hfind]
    rfl

theorem Follows.capacity_pos {es : List (Recency.Entry κ ν)} (hf : m'.Follows m es)
    (hcap : 0 < m.capacity) : 0 < m'.capacity := by
  rw [hf.capacity_eq]
  exact hcap

theorem Consistent.call_follows (hc : m.Consistent) (hcap : 0 < m.capacity) {c : MapCall κ ν}
    {a : MapAnswer κ ν} (h : m.call c = .ok (a, m')) : ∃ es, m'.Follows m es := by
  obtain ⟨m'', es, hcall, hf, -⟩ := hc.call_naive hcap c
  rw [hcall] at h
  simp only [Except.ok.injEq, Prod.mk.injEq] at h
  obtain ⟨-, rfl⟩ := h
  exact ⟨es, hf⟩

end Lru

/-! ## The invariant -/

/-- The result a caller in this phase has published for the flight it leads. -/
def Phase.posted {ν : Type} : Phase ν → Option (Work ν)
  | .leaving _ w => some w
  | _ => none

/-- The phases in which a caller is about to call its loader, or its loader runs. -/
def Phase.busy {ν : Type} : Phase ν → Bool
  | .calling _ | .loading _ => true
  | _ => false

/-- What a caller's answer rests on: the missing loader, the flight it led with the result it
published, the published result of the flight it followed, or its own cancelled context. A
value read on the first try rests on the read (`Loads.Inv.peek_of_read_hit`). -/
def Answer.Holds {κ ν : Type} [BEq κ] [Hashable κ] (s : Loads κ ν) (t : Nat) :
    Answer ν → Prop
  | .hit _ => True
  | .noLoader => s.hasLoader = false
  | .led f w => s.flights f = some ⟨t, some w⟩
  | .joined f w => s.result f = some w
  | .cancelled _ => s.cancelled t = true

namespace Answer

variable {κ ν : Type} [BEq κ] [Hashable κ] {s s' : Loads κ ν} {t : Nat}

/-- An answer rests on the loader, the flights and the contexts only. -/
theorem holds_congr (a : Answer ν) (hl : s'.hasLoader = s.hasLoader) (hf : s'.flights = s.flights)
    (hc : s'.cancelled = s.cancelled) : a.Holds s' t ↔ a.Holds s t := by
  cases a <;> simp [Holds, Loads.result, hl, hf, hc]

/-- An answer rests on no flight without a result, so such a flight may change. -/
theorem holds_update {a : Answer ν} (ha : a.Holds s t) {f : Nat} (hf : s.result f = none)
    (x : Option (Flight ν)) (hl : s'.hasLoader = s.hasLoader)
    (hfl : s'.flights = Function.update s.flights f x) (hc : s'.cancelled = s.cancelled) :
    a.Holds s' t := by
  cases a with
  | led g w =>
    have hne : g ≠ f := by
      rintro rfl
      simp [Holds] at ha
      simp [Loads.result, ha] at hf
    simpa [Holds, hfl, Function.update_of_ne hne] using ha
  | joined g w =>
    have hne : g ≠ f := by
      rintro rfl
      simp only [Holds] at ha
      rw [ha] at hf
      cases hf
    simpa [Holds, Loads.result, hfl, Function.update_of_ne hne] using ha
  | hit v => trivial
  | noLoader => simpa [Holds, hl] using ha
  | cancelled g => simpa [Holds, hc] using ha

end Answer

namespace Loads

variable {κ ν : Type} [BEq κ] [Hashable κ] {s : Loads κ ν}

/-- The invariant of the callers (module doc). -/
structure Inv (s : Loads κ ν) : Prop where
  consistent : s.map.Consistent
  capacity_pos : 0 < s.map.capacity
  /-- A caller that leads a flight leads the flight in the table, which names it, and whose
  result is what the caller has published. -/
  leads : ∀ t f, (s.phase t).leads = some f →
    s.inFlight = some f ∧ s.flights f = some ⟨t, (s.phase t).posted⟩
  /-- Numbers not yet given to a flight name none. -/
  fresh : ∀ f, s.count ≤ f → s.flights f = none
  answers : ∀ t a, s.phase t = .returned a → a.Holds s t

theorem inv_start (key : κ) (hasLoader : Bool) {m : Lru (SomeIndex κ) κ ν} (hc : m.Consistent)
    (hcap : 0 < m.capacity) : (Loads.start key hasLoader m).Inv where
  consistent := hc
  capacity_pos := hcap
  leads _ _ h := by cases h
  fresh _ _ := rfl
  answers _ _ h := by cases h

@[simp] theorem moveTo_phase_self (s : Loads κ ν) (t : Nat) (p : Phase ν) :
    (s.moveTo t p).phase t = p := by
  simp [moveTo]

theorem moveTo_phase_of_ne (s : Loads κ ν) {t u : Nat} (p : Phase ν) (h : u ≠ t) :
    (s.moveTo t p).phase u = s.phase u := by
  simp [moveTo, h]

/-- Two callers that lead flights are one caller: both lead the flight in the table, which
names one leader. -/
theorem Inv.leader_unique (h : s.Inv) {t t' f f' : Nat} (ht : (s.phase t).leads = some f)
    (ht' : (s.phase t').leads = some f') : t = t' := by
  obtain ⟨hin, hfl⟩ := h.leads t f ht
  obtain ⟨hin', hfl'⟩ := h.leads t' f' ht'
  rw [hin] at hin'
  cases hin'
  rw [hfl] at hfl'
  cases hfl'
  rfl

/-- A flight that a caller leads is registered. -/
theorem Inv.lt_count (h : s.Inv) {t f : Nat} (ht : (s.phase t).leads = some f) : f < s.count := by
  by_contra hge
  have hfl := (h.leads t f ht).2
  rw [h.fresh f (Nat.le_of_not_lt hge)] at hfl
  cases hfl

/-- Caller `t` moves to a phase that leads what its phase led, with what it had published, and
an answer it takes rests on the state; the map may become another consistent map with room. -/
theorem Inv.moveTo (h : s.Inv) {t : Nat} {p : Phase ν} (hleads : p.leads = (s.phase t).leads)
    (hposted : p.posted = (s.phase t).posted) (hans : ∀ a, p = .returned a → a.Holds s t)
    {m : Lru (SomeIndex κ) κ ν} (hf : ∃ es, m.Follows s.map es) :
    ({ s.moveTo t p with map := m } : Loads κ ν).Inv where
  consistent := hf.elim fun _ hf => hf.consistent
  capacity_pos := hf.elim fun _ hf => hf.capacity_pos h.capacity_pos
  leads u f hu := by
    by_cases hut : u = t
    · subst hut
      simp only [moveTo_phase_self] at hu ⊢
      rw [hleads] at hu
      rw [hposted]
      exact h.leads u f hu
    · simp only [moveTo_phase_of_ne s p hut] at hu ⊢
      exact h.leads u f hu
  fresh := h.fresh
  answers u a hu := by
    rw [Answer.holds_congr a rfl rfl rfl]
    by_cases hut : u = t
    · subst hut
      exact hans a (by simpa using hu)
    · exact h.answers u a (by simpa [moveTo_phase_of_ne s p hut] using hu)

theorem Inv.moveTo_same (h : s.Inv) {t : Nat} {p : Phase ν} (hleads : p.leads = (s.phase t).leads)
    (hposted : p.posted = (s.phase t).posted) (hans : ∀ a, p = .returned a → a.Holds s t) :
    (s.moveTo t p).Inv :=
  h.moveTo hleads hposted hans ⟨_, h.consistent.follows_self⟩

/-- Registering a new flight, when the table holds none: no caller leads, and the new number
names no flight yet. -/
theorem Inv.lead (h : s.Inv) {t : Nat} (hp : s.phase t = .joining) (hin : s.inFlight = none) :
    ({ s.moveTo t (.recheck s.count) with
        inFlight := some s.count
        flights := Function.update s.flights s.count (some ⟨t, none⟩)
        count := s.count + 1 } : Loads κ ν).Inv where
  consistent := h.consistent
  capacity_pos := h.capacity_pos
  leads u f hu := by
    by_cases hut : u = t
    · subst hut
      simp only [moveTo_phase_self, Phase.leads, Option.some.injEq] at hu ⊢
      subst hu
      simp [Phase.posted]
    · -- no other caller leads: a leader would lead the flight in the table
      simp only [moveTo_phase_of_ne s _ hut] at hu
      rw [(h.leads u f hu).1] at hin
      cases hin
  fresh f hf := by
    change s.count + 1 ≤ f at hf
    have hne : f ≠ s.count := by omega
    simp only [Function.update_of_ne hne]
    exact h.fresh f (by omega)
  answers u a hu := by
    by_cases hut : u = t
    · subst hut
      simp at hu
    · simp only [moveTo_phase_of_ne s _ hut] at hu
      -- the new number names no flight yet, so no answer rests on it
      have hnone : s.result s.count = none := by simp [result, h.fresh s.count le_rfl]
      exact Answer.holds_update (h.answers u a hu) hnone _ rfl rfl rfl

/-- Publishing the result of the flight one leads. -/
theorem Inv.publish (h : s.Inv) {t f : Nat} {w : Work ν} (hp : s.phase t = .publishing f w) :
    ({ s.moveTo t (.leaving f w) with
        flights := Function.update s.flights f (some ⟨t, some w⟩) } : Loads κ ν).Inv where
  consistent := h.consistent
  capacity_pos := h.capacity_pos
  leads u g hu := by
    have ht : (s.phase t).leads = some f := by rw [hp]; rfl
    by_cases hut : u = t
    · subst hut
      simp only [moveTo_phase_self, Phase.leads, Option.some.injEq] at hu ⊢
      subst hu
      exact ⟨(h.leads u _ ht).1, by simp [Phase.posted]⟩
    · -- the publisher is the only leader
      simp only [moveTo_phase_of_ne s _ hut] at hu
      exact absurd (h.leader_unique hu ht) hut
  fresh g hg := by
    change s.count ≤ g at hg
    have hlt := h.lt_count (t := t) (by rw [hp]; rfl)
    have hne : g ≠ f := by omega
    simp only [Function.update_of_ne hne]
    exact h.fresh g hg
  answers u a hu := by
    have ht : (s.phase t).leads = some f := by rw [hp]; rfl
    have hnone : s.flights f = some ⟨t, none⟩ := by
      have := (h.leads t f ht).2
      rwa [hp] at this
    by_cases hut : u = t
    · subst hut
      simp at hu
    · simp only [moveTo_phase_of_ne s _ hut] at hu
      -- the flight had no result yet, so no answer rests on it
      have hres : s.result f = none := by simp [result, hnone]
      exact Answer.holds_update (h.answers u a hu) hres _ rfl rfl rfl

/-- Leaving the table after publishing: the leaver was the only leader. -/
theorem Inv.leave (h : s.Inv) {t f : Nat} {w : Work ν} (hp : s.phase t = .leaving f w) :
    ({ s.moveTo t (.returned (.led f w)) with inFlight := none } : Loads κ ν).Inv where
  consistent := h.consistent
  capacity_pos := h.capacity_pos
  leads u g hu := by
    have ht : (s.phase t).leads = some f := by rw [hp]; rfl
    by_cases hut : u = t
    · subst hut
      simp [Phase.leads] at hu
    · simp only [moveTo_phase_of_ne s _ hut] at hu
      exact absurd (h.leader_unique hu ht) hut
  fresh := h.fresh
  answers u a hu := by
    by_cases hut : u = t
    · subst hut
      simp only [moveTo_phase_self, Phase.returned.injEq] at hu
      subst hu
      have := (h.leads u f (by rw [hp]; rfl)).2
      rw [hp] at this
      exact this
    · simp only [moveTo_phase_of_ne s _ hut] at hu
      exact h.answers u a hu

theorem Inv.cancel (h : s.Inv) (t : Nat) :
    ({ s with cancelled := Function.update s.cancelled t true } : Loads κ ν).Inv where
  consistent := h.consistent
  capacity_pos := h.capacity_pos
  leads := h.leads
  fresh := h.fresh
  answers u a hu := by
    have ha := h.answers u a hu
    -- a cancelled context stays cancelled
    cases a with
    | cancelled f =>
      by_cases hut : u = t
      · subst hut
        simp [Answer.Holds]
      · simpa [Answer.Holds, Function.update_of_ne hut] using ha
    | _ => exact ha

theorem Inv.setMap (h : s.Inv) {m : Lru (SomeIndex κ) κ ν} (hf : ∃ es, m.Follows s.map es) :
    ({ s with map := m } : Loads κ ν).Inv where
  consistent := hf.elim fun _ hf => hf.consistent
  capacity_pos := hf.elim fun _ hf => hf.capacity_pos h.capacity_pos
  leads := h.leads
  fresh := h.fresh
  answers u a hu := (Answer.holds_congr a rfl rfl rfl).mpr (h.answers u a hu)

/-- Every step keeps the invariant. -/
theorem Inv.next (h : s.Inv) {e : LoadEvent κ ν} (he : s.Enabled e) : (s.next e).Inv := by
  cases e with
  | read t =>
    have hp : s.phase t = .start := he
    simp only [Loads.next]
    split
    · rename_i hget
      exact h.moveTo (by rw [hp]; rfl) (by rw [hp]; rfl) (fun a ha => by cases ha; trivial)
        (h.consistent.get_follows hget).1
    · rename_i hget
      -- without a loader the caller answers at once, and its answer rests on that
      refine h.moveTo (by rw [hp]; split <;> rfl) (by rw [hp]; split <;> rfl) (fun a ha => ?_)
        (h.consistent.get_follows hget).1
      split at ha
      · cases ha
      · cases ha
        simpa [Answer.Holds] using ‹¬ s.hasLoader = true›
    · exact h
  | enter t =>
    have hp : s.phase t = .joining := he
    cases hin : s.inFlight with
    | some f =>
      simp only [Loads.next, hin]
      exact h.moveTo_same (by rw [hp]; rfl) (by rw [hp]; rfl) (fun a ha => by cases ha)
    | none =>
      simp only [Loads.next, hin]
      exact h.lead hp hin
  | reread t =>
    obtain ⟨f, hp⟩ := he
    simp only [Loads.next, hp]
    split
    · rename_i hf hget
      cases hf
      exact h.moveTo (by rw [hp]; rfl) (by rw [hp]; rfl) (fun a ha => by cases ha)
        (h.consistent.get_follows hget).1
    · rename_i hf hget
      cases hf
      exact h.moveTo (by rw [hp]; rfl) (by rw [hp]; rfl) (fun a ha => by cases ha)
        (h.consistent.get_follows hget).1
    · exact h
  | call t | give t _ | fail t _ | panic t _ | exit t =>
    -- the leader moves on in its flight
    obtain ⟨f, hp⟩ := he
    simp only [Loads.next, hp]
    exact h.moveTo_same (by rw [hp]; rfl) (by rw [hp]; rfl) (fun a ha => by cases ha)
  | store t =>
    obtain ⟨f, v, hp⟩ := he
    simp only [Loads.next, hp]
    split
    · rename_i hpush
      exact h.moveTo (by rw [hp]; rfl) (by rw [hp]; rfl) (fun a ha => by cases ha)
        (h.consistent.push_stores h.capacity_pos hpush).1
    · exact h
  | publish t =>
    obtain ⟨f, w, hp⟩ := he
    simp only [Loads.next, hp]
    exact h.publish hp
  | leave t =>
    obtain ⟨f, w, hp⟩ := he
    simp only [Loads.next, hp]
    exact h.leave hp
  | wake t =>
    obtain ⟨f, w, hp, hw⟩ := he
    simp only [Loads.next, hp, hw]
    exact h.moveTo_same (by rw [hp]; rfl) (by rw [hp]; rfl) (fun a ha => by cases ha; exact hw)
  | giveUp t =>
    obtain ⟨⟨f, hp⟩, hc⟩ := he
    simp only [Loads.next, hp]
    exact h.moveTo_same (by rw [hp]; rfl) (by rw [hp]; rfl) (fun a ha => by cases ha; exact hc)
  | cancel t => exact h.cancel t
  | other c =>
    simp only [Loads.next]
    split
    · rename_i hcall
      exact h.setMap (h.consistent.call_follows h.capacity_pos hcall)
    · exact h

theorem Inv.step (h : s.Inv) {s' : Loads κ ν} (hs : s.Step s') : s'.Inv := by
  obtain ⟨e, he, rfl⟩ := hs
  exact h.next he

theorem Reachable.inv (hs : s.Reachable) : s.Inv := by
  induction hs with
  | start key hasLoader hc hcap => exact inv_start key hasLoader hc hcap
  | step _ hstep ih => exact ih.step hstep

/-- Two callers that load are one: at most one loader call runs at a time. -/
theorem Inv.loader_unique (h : s.Inv) {t t' f f' : Nat} (ht : s.phase t = .loading f)
    (ht' : s.phase t' = .loading f') : t = t' := by
  have hl : (s.phase t).leads = some f := by rw [ht]; rfl
  have hl' : (s.phase t').leads = some f' := by rw [ht']; rfl
  exact h.leader_unique hl hl'

/-! ## No reload of a resident key -/

/-- No caller is about to call its loader, and no loader runs. -/
def Quiet (s : Loads κ ν) : Prop := ∀ t, (s.phase t).busy = false

/-- A step from a state whose map holds the key. -/
def ResidentStep (s s' : Loads κ ν) : Prop := s.Step s' ∧ s.map.contains s.key = true

theorem Quiet.moveTo (hq : s.Quiet) {t : Nat} {p : Phase ν} (hp : p.busy = false) :
    (s.moveTo t p).Quiet := by
  intro u
  by_cases hut : u = t
  · subst hut
    rw [moveTo_phase_self]
    exact hp
  · rw [moveTo_phase_of_ne s p hut]
    exact hq u

/-- In a quiet state no loader call can start. -/
theorem Quiet.not_call (hq : s.Quiet) (t : Nat) : ¬ s.Enabled (.call t) := by
  rintro ⟨f, hf⟩
  have hb := hq t
  rw [hf] at hb
  cases hb

theorem Quiet.not_loading (hq : s.Quiet) (t f : Nat) : s.phase t ≠ .loading f := by
  intro hf
  have hb := hq t
  rw [hf] at hb
  cases hb

/-- Right after the push of a loaded value no caller is about to call its loader and none
runs: a busy caller leads a flight, and the pusher leads the only one. -/
theorem Inv.quiet_store (h : s.Inv) {t : Nat} (he : s.Enabled (.store t)) :
    (s.next (.store t)).Quiet := by
  obtain ⟨f, v, hp⟩ := he
  have hq : s.Quiet := by
    intro u
    cases hu : s.phase u with
    | calling g | loading g =>
      have hut : u = t := h.leader_unique (f := g) (by rw [hu]; rfl) (by rw [hp]; rfl)
      rw [hut, hp] at hu
      cases hu
    | _ => rfl
  simp only [Loads.next, hp]
  split
  · exact hq.moveTo rfl
  · exact hq

/-- A step from a quiet state whose map holds the key leaves a quiet state: a leader that reads
again finds the key, and only a miss there leads to its loader. -/
theorem Inv.quiet_next (h : s.Inv) (hq : s.Quiet) (hk : s.map.contains s.key = true)
    (e : LoadEvent κ ν) : (s.next e).Quiet := by
  cases e with
  | read t =>
    simp only [Loads.next]
    split
    · exact hq.moveTo rfl
    · exact hq.moveTo (by split <;> rfl)
    · exact hq
  | enter t =>
    simp only [Loads.next]
    split
    · exact hq.moveTo rfl
    · exact hq.moveTo rfl
  | reread t =>
    simp only [Loads.next]
    split
    · exact hq.moveTo rfl
    · rename_i hget
      have hmiss := h.consistent.contains_of_get_none hget
      rw [hk] at hmiss
      cases hmiss
    · exact hq
  | call t =>
    simp only [Loads.next]
    split
    · rename_i hc
      exact absurd ⟨_, hc⟩ (hq.not_call t)
    · exact hq
  | give t _ | fail t _ | panic t _ | exit t =>
    -- no loader runs
    simp only [Loads.next]
    split
    · exact absurd ‹_› (hq.not_loading t _)
    · exact hq
  | store t =>
    simp only [Loads.next]
    split
    · split
      · exact hq.moveTo rfl
      · exact hq
    · exact hq
  | publish t =>
    simp only [Loads.next]
    split
    · exact hq.moveTo rfl
    · exact hq
  | leave t =>
    simp only [Loads.next]
    split
    · exact hq.moveTo rfl
    · exact hq
  | wake t =>
    simp only [Loads.next]
    split
    · split
      · exact hq.moveTo rfl
      · exact hq
    · exact hq
  | giveUp t =>
    simp only [Loads.next]
    split
    · exact hq.moveTo rfl
    · exact hq
  | cancel t => exact hq
  | other c =>
    simp only [Loads.next]
    split
    · exact hq
    · exact hq

/-- Along steps from states that hold the key, a quiet state stays quiet. -/
theorem Inv.quiet_run (h : s.Inv) (hq : s.Quiet) {s' : Loads κ ν}
    (hrun : Relation.ReflTransGen ResidentStep s s') : s'.Inv ∧ s'.Quiet := by
  induction hrun with
  | refl => exact ⟨h, hq⟩
  | tail _ hstep ih =>
    obtain ⟨⟨e, he, rfl⟩, hk⟩ := hstep
    exact ⟨ih.1.next he, ih.1.quiet_next ih.2 hk e⟩


/-! ## Where values come from -/

/-- A caller whose first read answers with a value read it from the map. -/
theorem Inv.peek_of_read_hit (h : s.Inv) {t : Nat} {v : ν} (he : s.Enabled (.read t))
    (hv : (s.next (.read t)).phase t = .returned (.hit v)) : s.map.peek s.key = .ok (some v) := by
  have hp : s.phase t = .start := he
  simp only [Loads.next] at hv
  split at hv
  · rename_i v' m' sigs hget
    simp only [moveTo_phase_self, Phase.returned.injEq, Answer.hit.injEq] at hv
    subst hv
    exact h.consistent.peek_of_get hget
  · simp only [moveTo_phase_self] at hv
    split at hv <;> cases hv
  · rw [hp] at hv
    cases hv

/-- A leader whose second read ends its flight with a value read it from the map. -/
theorem Inv.peek_of_reread_found (h : s.Inv) {t f : Nat} {v : ν} (he : s.Enabled (.reread t))
    (hv : (s.next (.reread t)).phase t = .publishing f (.found v)) :
    s.map.peek s.key = .ok (some v) := by
  obtain ⟨g, hp⟩ := he
  simp only [Loads.next] at hv
  split at hv
  · rename_i g' v' m' sigs _ hget
    simp only [moveTo_phase_self, Phase.publishing.injEq, Work.found.injEq] at hv
    rw [← hv.2]
    exact h.consistent.peek_of_get hget
  · simp only [moveTo_phase_self] at hv
    cases hv
  · rw [hp] at hv
    cases hv

/-- The push of a loaded value leaves it in the map, and the flight's work ends with it. -/
theorem Inv.store_publishes (h : s.Inv) {t f : Nat} {v : ν} (hp : s.phase t = .storing f v) :
    (s.next (.store t)).phase t = .publishing f (.loaded v) ∧
      (s.next (.store t)).map.peek s.key = .ok (some v) ∧
      (s.next (.store t)).map.contains s.key = true := by
  obtain ⟨m', sigs, es, hpush, -, -⟩ := h.consistent.push_naive h.capacity_pos s.key v
  obtain ⟨-, hpeek, hmem⟩ := h.consistent.push_stores h.capacity_pos hpush
  simp only [Loads.next, hp, hpush]
  exact ⟨moveTo_phase_self s t _, hpeek, hmem⟩

/-! ## Coalescing -/

/-- Over every interleaving of read-or-load callers of one key, with other calls on the map and
cancellations in between: one loader call runs at a time; once a loaded value is pushed, no
loader call starts or runs while the map holds the key; every answer rests on the missing
loader, the published work of the caller's flight or its own cancelled context; and the values
that reads return or loads push are the map's. -/
theorem read_or_load_coalesces (hs : s.Reachable) :
    (∀ t t' f f', s.phase t = .loading f → s.phase t' = .loading f' → t = t') ∧
    (∀ t f v, s.phase t = .storing f v → ∀ s',
      Relation.ReflTransGen ResidentStep (s.next (.store t)) s' →
      ∀ u, ¬ s'.Enabled (.call u) ∧ ∀ g, s'.phase u ≠ .loading g) ∧
    (∀ t a, s.phase t = .returned a → a.Holds s t) ∧
    (∀ t v, s.Enabled (.read t) → (s.next (.read t)).phase t = .returned (.hit v) →
      s.map.peek s.key = .ok (some v)) ∧
    (∀ t f v, s.Enabled (.reread t) → (s.next (.reread t)).phase t = .publishing f (.found v) →
      s.map.peek s.key = .ok (some v)) ∧
    (∀ t f v, s.phase t = .storing f v →
      (s.next (.store t)).phase t = .publishing f (.loaded v) ∧
        (s.next (.store t)).map.peek s.key = .ok (some v)) := by
  have h := hs.inv
  refine ⟨fun t t' f f' => h.loader_unique, ?_, h.answers, fun t v => h.peek_of_read_hit,
    fun t f v => h.peek_of_reread_found, fun t f v hp => ?_⟩
  · intro t f v hp s' hrun u
    have hstore : s.Enabled (.store t) := ⟨f, v, hp⟩
    -- the push leaves a quiet state, and resident steps keep it quiet
    have hq := (h.next hstore).quiet_run (h.quiet_store hstore) hrun
    exact ⟨hq.2.not_call u, hq.2.not_loading u⟩
  · obtain ⟨hphase, hpeek, -⟩ := h.store_publishes hp
    exact ⟨hphase, hpeek⟩

/-- From a start on an empty map, one caller reaches its loader: it is the one that loads. -/
theorem read_or_load_coalesces_one_loader :
    ∃ s : Loads Int String,
      s.Reachable ∧ s.phase 0 = .loading 0 ∧ ∀ t f, s.phase t = .loading f → t = 0 := by
  have hlaw : (SomeIndex.emptyOrdered compare : SomeIndex Int).Lawful := by
    show Std.TransCmp (compare : Int → Int → Ordering)
    infer_instance
  have hcreate : (Lru.create? 2 (SomeIndex.emptyOrdered compare) :
      Except BuildError (Lru (SomeIndex Int) Int String)) =
      .ok ⟨Arena.empty 2, .emptyOrdered compare⟩ := rfl
  have h0 : (Loads.start 1 true
      (⟨Arena.empty 2, .emptyOrdered compare⟩ : Lru (SomeIndex Int) Int String)).Reachable :=
    .start 1 true
      (Lru.consistent_create hcreate (SomeIndex.describes_empty (Or.inr ⟨compare, rfl⟩) hlaw))
      (by decide)
  have h1 := h0.step ⟨.read 0, rfl, rfl⟩
  have h2 := h1.step ⟨.enter 0, by show _ = Phase.joining; decide +kernel, rfl⟩
  have h3 := h2.step ⟨.reread 0, ⟨0, by decide +kernel⟩, rfl⟩
  have h4 := h3.step ⟨.call 0, ⟨0, by decide +kernel⟩, rfl⟩
  refine ⟨_, h4, by decide +kernel, fun t f ht => ?_⟩
  exact (read_or_load_coalesces h4).1 t 0 f 0 ht (by decide +kernel)

end Loads

end RecencyMap
