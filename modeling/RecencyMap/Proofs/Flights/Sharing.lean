import RecencyMap.Proofs.Flights.Interleaved

/-!
# One run per key, shared with its followers

Over every interleaving of callers of `Do` on one group, with any keys, functions that return,
panic or end their thread at any moment, and contexts done at any moment:

* at most one function per key runs at a time, and it is run by the caller that registered the
  key's flight in the table, which leads it;
* a leader whose function returned ends with what it returned, not shared; one whose function
  panicked panics again with the same text, and one whose function ended its thread ends too;
  in every case its flight was closed storing what the followers see, the panic's or the
  exit's error when the function did not return;
* a follower ends with exactly what a closed flight of its key stored, shared, or with the zero
  value and its own context's error once that context is done; no flight names it as its
  leader, so its own function never ran;
* when no call is in progress, no key is in flight.

All follow from one inductive invariant (`DoCalls.Inv`): the table holds each key once, under
the flight of a caller leading it; a caller leading a flight finds it in the table under its
key, standing as its phase says; the caller that registered a flight leads it still or has
ended as its function did; a follower follows a flight of its key that another caller leads;
and every answer rests on what `DoAnswer.Holds` says.

The sequential calls of `runFlights` agree on the last point: after each top-level call, no key
is in flight.
-/

namespace RecencyMap

/-! ## The table -/

section Table

variable {α β : Type}

/-- In a list that holds each key once, a key has one value. -/
theorem eq_of_mem_of_nodup_keys {l : List (α × β)} (hl : (l.map Prod.fst).Nodup) {k : α}
    {b b' : β} (hb : (k, b) ∈ l) (hb' : (k, b') ∈ l) : b = b' := by
  have h := List.inj_on_of_nodup_map hl hb hb' rfl
  exact (Prod.mk.inj h).2

variable [DecidableEq α]

theorem mem_of_lookup_eq_some {k : α} {b : β} :
    ∀ {l : List (α × β)}, l.lookup k = some b → (k, b) ∈ l
  | [], h => by simp at h
  | (k', b') :: l, h => by
    by_cases hk : k = k'
    · subst hk
      simp only [List.lookup, beq_self_eq_true, Option.some.injEq] at h
      simp [h]
    · simp only [List.lookup, beq_false_of_ne hk] at h
      exact List.mem_cons_of_mem _ (mem_of_lookup_eq_some h)

/-- In a list that holds each key once, looking a key up finds the value it holds. -/
theorem lookup_eq_some_of_mem : ∀ {l : List (α × β)}, (l.map Prod.fst).Nodup →
    ∀ {k : α} {b : β}, (k, b) ∈ l → l.lookup k = some b
  | [], _, _, _, h => by cases h
  | (k', b') :: l, hl, k, b, h => by
    rw [List.map_cons, List.nodup_cons] at hl
    rcases List.mem_cons.mp h with heq | htail
    · cases heq
      simp [List.lookup]
    · have hne : k ≠ k' := by
        rintro rfl
        exact hl.1 (List.mem_map.mpr ⟨(k, b), htail, rfl⟩)
      simp only [List.lookup, beq_false_of_ne hne]
      exact lookup_eq_some_of_mem hl.2 htail

theorem not_mem_of_lookup_eq_none {k : α} (b : β) :
    ∀ {l : List (α × β)}, l.lookup k = none → (k, b) ∉ l
  | [], _ => by simp
  | (k', b') :: l, h => by
    by_cases hk : k = k'
    · subst hk
      simp at h
    · simp only [List.lookup, beq_false_of_ne hk] at h
      simp [hk, not_mem_of_lookup_eq_none b h]

end Table

/-! ## What an answer rests on -/

section Answers

variable {κ ν : Type}

namespace DoCalls

/-- Caller `t` registered a flight, now closed, that stores `v` and `err`. -/
def Led (s : DoCalls κ ν) (t : Nat) (v : ν) (err : Option String) : Prop :=
  ∃ f fl, s.flights f = some fl ∧ fl.leader = t ∧ fl.closed = true ∧ fl.value = v ∧
    fl.error = err

/-- The flight caller `t` found in the table, of the key it asked for and registered by another
caller, is closed and stores `v` and `err`. -/
def Joined (s : DoCalls κ ν) (t : Nat) (v : ν) (err : Option String) : Prop :=
  ∃ f fl, s.joined t = some f ∧ s.flights f = some fl ∧ s.asked t = some fl.key ∧
    fl.leader ≠ t ∧ fl.closed = true ∧ fl.value = v ∧ fl.error = err

/-- From `s` to `s'` nothing that an answer of caller `t` rests on changes: the zero value, the
key `t` asked for and the flight it found, the closed flights, and `t`'s context error once
there is one. -/
structure Keeps (s s' : DoCalls κ ν) (t : Nat) : Prop where
  zero : s'.zero = s.zero
  asked : s'.asked t = s.asked t
  joined : s'.joined t = s.joined t
  closed : ∀ f fl, s.flights f = some fl → fl.closed = true → s'.flights f = some fl
  ctxErr : ∀ e, s.ctxErr t = some e → s'.ctxErr t = some e

theorem keeps_moveTo (s : DoCalls κ ν) (t : Nat) (p : DoPhase ν) (u : Nat) :
    s.Keeps (s.moveTo t p) u :=
  ⟨rfl, rfl, rfl, fun _ _ hf _ => hf, fun _ he => he⟩

/-- Changing one flight that is not closed keeps what answers rest on. -/
theorem keeps_of_open {s s' : DoCalls κ ν} {u f : Nat} {x : Option (DoFlight κ ν)}
    (hz : s'.zero = s.zero) (ha : s'.asked = s.asked) (hj : s'.joined = s.joined)
    (hc : s'.ctxErr = s.ctxErr) (hfl : s'.flights = Function.update s.flights f x)
    (hopen : ∀ fl, s.flights f = some fl → fl.closed = false) : s.Keeps s' u where
  zero := hz
  asked := by rw [ha]
  joined := by rw [hj]
  closed g fl hg hcl := by
    have hne : g ≠ f := by
      rintro rfl
      rw [hopen fl hg] at hcl
      cases hcl
    rw [hfl, Function.update_of_ne hne]
    exact hg
  ctxErr e he := by rw [hc]; exact he

theorem Led.keep {s s' : DoCalls κ ν} {t : Nat} {v : ν} {err : Option String}
    (h : s.Led t v err) (hk : s.Keeps s' t) : s'.Led t v err := by
  obtain ⟨f, fl, hf, hl, hc, hv, he⟩ := h
  exact ⟨f, fl, hk.closed f fl hf hc, hl, hc, hv, he⟩

theorem Joined.keep {s s' : DoCalls κ ν} {t : Nat} {v : ν} {err : Option String}
    (h : s.Joined t v err) (hk : s.Keeps s' t) : s'.Joined t v err := by
  obtain ⟨f, fl, hj, hf, hk', hl, hc, hv, he⟩ := h
  exact ⟨f, fl, hk.joined.trans hj, hk.closed f fl hf hc, hk.asked.trans hk', hl, hc, hv, he⟩

end DoCalls

/-- What a caller's answer rests on. A shared answer is what a followed flight stored, or the
zero value with the caller's own context error; any other is what the flight the caller led
stored: the returned value and error, or the zero value with the error of a panic or an exit. -/
def DoAnswer.Holds (s : DoCalls κ ν) (t : Nat) : DoAnswer ν → Prop
  | .returned v err true =>
    s.Joined t v err ∨ (v = s.zero ∧ ∃ e, err = some e ∧ s.ctxErr t = some e)
  | .returned v err false => s.Led t v err
  | .panicked text => s.Led t s.zero (some (panicError text))
  | .exited => s.Led t s.zero (some goexitError)

theorem DoAnswer.Holds.keep {s s' : DoCalls κ ν} {t : Nat} {a : DoAnswer ν} (ha : a.Holds s t)
    (hk : s.Keeps s' t) : a.Holds s' t := by
  cases a with
  | returned v err shared =>
    cases shared with
    | true =>
      rcases ha with hj | ⟨hv, e, he, hc⟩
      · exact .inl (hj.keep hk)
      · exact .inr ⟨by rw [hk.zero]; exact hv, e, he, hk.ctxErr e hc⟩
    | false => exact DoCalls.Led.keep ha hk
  | panicked text =>
    show s'.Led t s'.zero _
    rw [hk.zero]
    exact DoCalls.Led.keep ha hk
  | exited =>
    show s'.Led t s'.zero _
    rw [hk.zero]
    exact DoCalls.Led.keep ha hk

/-- A leader's answer rests on its closed flight storing what its function left. -/
theorem FnEnd.leaderAnswer_holds (s : DoCalls κ ν) (t : Nat) (e : FnEnd ν) :
    e.leaderAnswer.Holds s t ↔ s.Led t (e.stored s.zero).1 (e.stored s.zero).2 := by
  cases e <;> rfl

theorem FnEnd.leaderAnswer_ne_shared (e : FnEnd ν) (v : ν) (err : Option String) :
    e.leaderAnswer ≠ .returned v err true := by
  cases e <;> simp [FnEnd.leaderAnswer]

/-- A phase that leads a flight stands for a record of it, under the asked key and naming the
caller. -/
theorem DoPhase.record_of_leads {p : DoPhase ν} {f : Nat} (hp : p.leads = some f) (zero : ν)
    (k : κ) (t : Nat) : ∃ v err c, p.record zero k t = some ⟨k, t, v, err, c⟩ := by
  cases p with
  | running g => exact ⟨zero, none, false, rfl⟩
  | finishing g e => exact ⟨_, _, false, rfl⟩
  | releasing g e => exact ⟨_, _, true, rfl⟩
  | idle | waiting _ | done _ => cases hp

end Answers

/-! ## The invariant -/

namespace DoCalls

variable {κ ν : Type} {s : DoCalls κ ν}

/-- The invariant of the callers (module doc). -/
structure Inv (s : DoCalls κ ν) : Prop where
  /-- The table holds each key once. -/
  nodup : (s.table.map Prod.fst).Nodup
  /-- Every flight in the table is led by a caller that asked for its key. -/
  table_led : ∀ k f, (k, f) ∈ s.table →
    ∃ t, (s.phase t).leads = some f ∧ s.asked t = some k
  /-- A caller that leads a flight finds it in the table under the key it asked for, standing as
  its phase says. -/
  leads : ∀ t f, (s.phase t).leads = some f →
    ∃ k, s.asked t = some k ∧ (k, f) ∈ s.table ∧ s.flights f = (s.phase t).record s.zero k t
  /-- Numbers not yet given to a flight name none. -/
  fresh : ∀ f, s.count ≤ f → s.flights f = none
  /-- The caller that registered a flight leads it still, or has ended as its function did. -/
  records : ∀ f fl, s.flights f = some fl →
    (s.phase fl.leader).leads = some f ∨
      ∃ e : FnEnd ν, s.phase fl.leader = .done e.leaderAnswer
  /-- A follower follows the flight it found, registered for the key it asked for and led by
  another caller. -/
  waiting : ∀ t f, s.phase t = .waiting f → s.joined t = some f ∧
    ∃ fl, s.flights f = some fl ∧ s.asked t = some fl.key ∧ fl.leader ≠ t
  answers : ∀ t a, s.phase t = .done a → a.Holds s t

theorem inv_start (zero : ν) : (DoCalls.start zero : DoCalls κ ν).Inv where
  nodup := List.nodup_nil
  table_led _ _ h := by cases h
  leads _ _ h := by cases h
  fresh _ _ := rfl
  records _ _ h := by cases h
  waiting _ _ h := by cases h
  answers _ _ h := by cases h

/-- A leader's flight is registered under the key it asked for, in the table, and names it. -/
theorem Inv.flight_of_leads (h : s.Inv) {t f : Nat} (ht : (s.phase t).leads = some f) :
    ∃ k v err c, s.asked t = some k ∧ (k, f) ∈ s.table ∧
      s.flights f = some ⟨k, t, v, err, c⟩ := by
  obtain ⟨k, hk, hmem, hf⟩ := h.leads t f ht
  obtain ⟨v, err, c, hrec⟩ := DoPhase.record_of_leads ht s.zero k t
  exact ⟨k, v, err, c, hk, hmem, hf.trans hrec⟩

/-- A flight has one leader. -/
theorem Inv.leader_unique (h : s.Inv) {t u f : Nat} (ht : (s.phase t).leads = some f)
    (hu : (s.phase u).leads = some f) : t = u := by
  obtain ⟨k, v, err, c, -, -, hf⟩ := h.flight_of_leads ht
  obtain ⟨k', v', err', c', -, -, hf'⟩ := h.flight_of_leads hu
  rw [hf] at hf'
  cases hf'
  rfl

/-- Two leaders that asked for one key are one caller: the table holds the key once. -/
theorem Inv.leader_of_key_unique (h : s.Inv) {t u f g : Nat} (ht : (s.phase t).leads = some f)
    (hu : (s.phase u).leads = some g) (hk : s.asked t = s.asked u) : t = u := by
  obtain ⟨k, v, err, c, hkt, hmem, -⟩ := h.flight_of_leads ht
  obtain ⟨k', v', err', c', hku, hmem', -⟩ := h.flight_of_leads hu
  have hkk : k = k' := by
    rw [hkt, hku] at hk
    exact Option.some.inj hk
  subst hkk
  have hfg : f = g := eq_of_mem_of_nodup_keys h.nodup hmem hmem'
  subst hfg
  exact h.leader_unique ht hu

theorem Inv.lt_count (h : s.Inv) {f : Nat} {fl : DoFlight κ ν} (hf : s.flights f = some fl) :
    f < s.count := by
  by_contra hge
  rw [h.fresh f (Nat.le_of_not_lt hge)] at hf
  cases hf

/-- A caller that leads nothing and has not ended as a leader registered no flight. -/
theorem Inv.not_leader (h : s.Inv) {t : Nat} (hp : (s.phase t).leads = none)
    (hd : ∀ e : FnEnd ν, s.phase t ≠ .done e.leaderAnswer) :
    ∀ f fl, s.flights f = some fl → fl.leader ≠ t := by
  intro f fl hf hl
  rcases h.records f fl hf with hle | ⟨e, he⟩
  · rw [hl, hp] at hle
    cases hle
  · rw [hl] at he
    exact hd e he

/-- Caller `t`, leading nothing and registered as no flight's leader, moves to a phase that
leads nothing: following a flight of its key that another caller leads, or ending with an
answer that rests on the state. -/
theorem Inv.moveTo_quiet (h : s.Inv) {t : Nat} (hp : (s.phase t).leads = none)
    (hled : ∀ f fl, s.flights f = some fl → fl.leader ≠ t) {p : DoPhase ν}
    (hpl : p.leads = none)
    (hw : ∀ f, p = .waiting f → s.joined t = some f ∧
      ∃ fl, s.flights f = some fl ∧ s.asked t = some fl.key ∧ fl.leader ≠ t)
    (ha : ∀ a, p = .done a → a.Holds s t) : (s.moveTo t p).Inv where
  nodup := h.nodup
  table_led k f hkf := by
    obtain ⟨u, hu, hk⟩ := h.table_led k f hkf
    have hut : u ≠ t := by
      rintro rfl
      rw [hp] at hu
      cases hu
    exact ⟨u, by rw [moveTo_phase_of_ne s p hut]; exact hu, hk⟩
  leads u f hu := by
    have hut : u ≠ t := by
      rintro rfl
      rw [moveTo_phase_self, hpl] at hu
      cases hu
    rw [moveTo_phase_of_ne s p hut] at hu ⊢
    exact h.leads u f hu
  fresh := h.fresh
  records f fl hf := by
    rw [moveTo_phase_of_ne s p (hled f fl hf)]
    exact h.records f fl hf
  waiting u f hu := by
    by_cases hut : u = t
    · subst hut
      exact hw f (by simpa using hu)
    · rw [moveTo_phase_of_ne s p hut] at hu
      exact h.waiting u f hu
  answers u a hu := by
    by_cases hut : u = t
    · subst hut
      exact (ha a (by simpa using hu)).keep (keeps_moveTo s u p u)
    · rw [moveTo_phase_of_ne s p hut] at hu
      exact (h.answers u a hu).keep (keeps_moveTo s t p u)

/-- A follower ends with an answer that rests on the state. -/
theorem Inv.settle (h : s.Inv) {t f : Nat} (hp : s.phase t = .waiting f) {a : DoAnswer ν}
    (ha : a.Holds s t) : (s.moveTo t (.done a)).Inv := by
  have hled := h.not_leader (t := t) (by rw [hp]; rfl) (fun e he => by rw [hp] at he; cases he)
  refine h.moveTo_quiet (by rw [hp]; rfl) hled rfl (fun g hg => by cases hg) ?_
  intro a' ha'
  cases ha'
  exact ha

/-- Caller `t` leads flight `f`, not yet closed, and moves on to a phase that leads it too; the
flight changes as the new phase says. -/
theorem Inv.advance (h : s.Inv) {t f : Nat} (ht : (s.phase t).leads = some f)
    (hopen : ∀ (k : κ) fl, (s.phase t).record s.zero k t = some fl → fl.closed = false)
    {p : DoPhase ν}
    (hp : p.leads = some f) (g : DoFlight κ ν → DoFlight κ ν)
    (hg : ∀ k, ((s.phase t).record s.zero k t).map g = p.record s.zero k t) :
    ((s.moveTo t p).updateFlight f g).Inv := by
  have hphase : ((s.moveTo t p).updateFlight f g).phase = Function.update s.phase t p := rfl
  have hflights : ((s.moveTo t p).updateFlight f g).flights =
      Function.update s.flights f ((s.flights f).map g) := rfl
  -- every caller leads what it led, and no other caller than `t` moves
  have hleads : ∀ u, (Function.update s.phase t p u).leads = (s.phase u).leads := by
    intro u
    by_cases hut : u = t
    · subst hut
      rw [Function.update_self, hp, ht]
    · rw [Function.update_of_ne hut]
  have hother : ∀ u, (Function.update s.phase t p u).leads = none → u ≠ t := by
    rintro u hu rfl
    rw [Function.update_self, hp] at hu
    cases hu
  obtain ⟨k, hk, hmem, hf⟩ := h.leads t f ht
  -- the flight changes to the record of the new phase, with its key and leader
  have hnew : Function.update s.flights f ((s.flights f).map g) f = p.record s.zero k t := by
    rw [Function.update_self, hf, hg k]
  obtain ⟨v₀, err₀, c₀, hrec₀⟩ := DoPhase.record_of_leads ht s.zero k t
  obtain ⟨v, err, c, hrec⟩ := DoPhase.record_of_leads hp s.zero k t
  have hlt : f < s.count := h.lt_count (hf.trans hrec₀)
  refine ⟨h.nodup, ?_, ?_, ?_, ?_, ?_, ?_⟩
  · intro k' f' hkf
    obtain ⟨u, hu, hk'⟩ := h.table_led k' f' hkf
    exact ⟨u, by rw [hphase, hleads u]; exact hu, hk'⟩
  · intro u f' hu
    rw [hphase, hleads u] at hu
    rw [hphase, hflights]
    by_cases hut : u = t
    · subst hut
      rw [ht] at hu
      cases hu
      exact ⟨k, hk, hmem, by rw [hnew, Function.update_self]; rfl⟩
    · have hne : f' ≠ f := by
        rintro rfl
        exact hut (h.leader_unique hu ht)
      obtain ⟨k', hk', hmem', hf'⟩ := h.leads u f' hu
      refine ⟨k', hk', hmem', ?_⟩
      rw [Function.update_of_ne hne, Function.update_of_ne hut]
      exact hf'
  · intro f' hf'
    have hne : f' ≠ f := by
      change s.count ≤ f' at hf'
      omega
    rw [hflights, Function.update_of_ne hne]
    exact h.fresh f' hf'
  · intro f' fl hf'
    rw [hflights] at hf'
    rw [hphase]
    by_cases hff : f' = f
    · subst hff
      rw [hnew, hrec] at hf'
      cases hf'
      exact .inl (by rw [Function.update_self, hp])
    · rw [Function.update_of_ne hff] at hf'
      rw [hleads]
      rcases h.records f' fl hf' with hle | ⟨e, he⟩
      · exact .inl hle
      · have hlt : fl.leader ≠ t := by
          rintro hl
          rw [hl] at he
          rw [he] at ht
          cases ht
        exact .inr ⟨e, by rw [Function.update_of_ne hlt]; exact he⟩
  · intro u f' hu
    rw [hphase] at hu
    have hut : u ≠ t := hother u (by rw [hu]; rfl)
    rw [Function.update_of_ne hut] at hu
    obtain ⟨hj, fl, hfl, hkey, hl⟩ := h.waiting u f' hu
    rw [hflights]
    by_cases hff : f' = f
    · -- the new record keeps the key and the leader of the old
      subst hff
      rw [hf, hrec₀] at hfl
      cases hfl
      exact ⟨hj, ⟨k, t, v, err, c⟩, by rw [hnew, hrec], hkey, hl⟩
    · exact ⟨hj, fl, by rw [Function.update_of_ne hff]; exact hfl, hkey, hl⟩
  · intro u a hu
    rw [hphase] at hu
    have hut : u ≠ t := hother u (by rw [hu]; rfl)
    rw [Function.update_of_ne hut] at hu
    exact (h.answers u a hu).keep
      (keeps_of_open rfl rfl rfl rfl hflights fun fl hfl => hopen k fl (hf ▸ hfl))

/-- An idle caller asks for a key and notes the flight it finds: nothing rests on what it asked
or found before. -/
theorem Inv.ask (h : s.Inv) {t : Nat} (hp : s.phase t = .idle) (k : κ) (j : Option Nat) :
    ({ s with
      asked := Function.update s.asked t (some k)
      joined := Function.update s.joined t j } : DoCalls κ ν).Inv := by
  -- every caller the invariant speaks of has left idle, so it is not `t`
  have hne : ∀ u, s.phase u ≠ .idle → u ≠ t := fun u hu hut => hu (hut ▸ hp)
  have hasked : ∀ u, u ≠ t → Function.update s.asked t (some k) u = s.asked u :=
    fun u hut => Function.update_of_ne hut _ _
  have hjoined : ∀ u, u ≠ t → Function.update s.joined t j u = s.joined u :=
    fun u hut => Function.update_of_ne hut _ _
  refine ⟨h.nodup, ?_, ?_, h.fresh, h.records, ?_, ?_⟩
  · intro k' f hkf
    obtain ⟨u, hu, hk⟩ := h.table_led k' f hkf
    have hut := hne u fun hi => by rw [hi] at hu; cases hu
    exact ⟨u, hu, (hasked u hut).trans hk⟩
  · intro u f hu
    have hut := hne u fun hi => by rw [hi] at hu; cases hu
    obtain ⟨k', hk', hmem, hf⟩ := h.leads u f hu
    exact ⟨k', (hasked u hut).trans hk', hmem, hf⟩
  · intro u f hu
    have hut := hne u fun hi => by rw [hi] at hu; cases hu
    obtain ⟨hj, fl, hfl, hkey, hl⟩ := h.waiting u f hu
    exact ⟨(hjoined u hut).trans hj, fl, hfl, (hasked u hut).trans hkey, hl⟩
  · intro u a hu
    have hut := hne u fun hi => by rw [hi] at hu; cases hu
    exact (h.answers u a hu).keep
      ⟨rfl, hasked u hut, hjoined u hut, fun _ _ hf _ => hf, fun _ he => he⟩

/-- An idle caller that asked for a key with no flight in the table registers one and leads
it. -/
theorem Inv.register [DecidableEq κ] (h : s.Inv) {t : Nat} (hp : s.phase t = .idle) {k : κ}
    (hk : s.asked t = some k) (hfree : s.table.lookup k = none) : (s.register t k).Inv := by
  have hphase : (s.register t k).phase = Function.update s.phase t (.running s.count) := rfl
  have hflights : (s.register t k).flights =
      Function.update s.flights s.count (some ⟨k, t, s.zero, none, false⟩) := rfl
  have hled := h.not_leader (t := t) (by rw [hp]; rfl) fun e he => by rw [hp] at he; cases he
  have hne : ∀ u, s.phase u ≠ .idle → u ≠ t := fun u hu hut => hu (hut ▸ hp)
  -- the flights registered so far are numbered below the new one
  have hold : ∀ f fl, s.flights f = some fl → f ≠ s.count :=
    fun f fl hf => Nat.ne_of_lt (h.lt_count hf)
  refine ⟨?_, ?_, ?_, ?_, ?_, ?_, ?_⟩
  · show (((k, s.count) :: s.table).map Prod.fst).Nodup
    rw [List.map_cons, List.nodup_cons]
    refine ⟨fun hmem => ?_, h.nodup⟩
    obtain ⟨⟨k', f⟩, hkf, hk'⟩ := List.mem_map.mp hmem
    change k' = k at hk'
    subst hk'
    exact not_mem_of_lookup_eq_none f hfree hkf
  · intro k' f hkf
    rcases List.mem_cons.mp hkf with heq | hkf
    · cases heq
      exact ⟨t, by rw [hphase, Function.update_self]; rfl, hk⟩
    · obtain ⟨u, hu, hk'⟩ := h.table_led k' f hkf
      have hut := hne u fun hi => by rw [hi] at hu; cases hu
      exact ⟨u, by rw [hphase, Function.update_of_ne hut]; exact hu, hk'⟩
  · intro u f hu
    rw [hphase] at hu
    rw [hphase, hflights]
    by_cases hut : u = t
    · subst hut
      rw [Function.update_self] at hu
      cases hu
      exact ⟨k, hk, List.mem_cons_self, by rw [Function.update_self, Function.update_self]; rfl⟩
    · rw [Function.update_of_ne hut] at hu ⊢
      obtain ⟨k', hk', hmem, hf⟩ := h.leads u f hu
      obtain ⟨v, err, c, hrec⟩ := DoPhase.record_of_leads hu s.zero k' u
      refine ⟨k', hk', List.mem_cons_of_mem _ hmem, ?_⟩
      rw [Function.update_of_ne (hold f _ (hf.trans hrec))]
      exact hf
  · intro f hf
    change s.count + 1 ≤ f at hf
    rw [hflights, Function.update_of_ne (by omega)]
    exact h.fresh f (by omega)
  · intro f fl hf
    rw [hflights] at hf
    rw [hphase]
    by_cases hfc : f = s.count
    · subst hfc
      rw [Function.update_self] at hf
      cases hf
      exact .inl (by simp [DoPhase.leads])
    · rw [Function.update_of_ne hfc] at hf
      rw [Function.update_of_ne (hled f fl hf)]
      exact h.records f fl hf
  · intro u f hu
    rw [hphase] at hu
    have hut : u ≠ t := by
      rintro rfl
      rw [Function.update_self] at hu
      cases hu
    rw [Function.update_of_ne hut] at hu
    obtain ⟨hj, fl, hfl, hkey, hl⟩ := h.waiting u f hu
    exact ⟨hj, fl, by rw [hflights, Function.update_of_ne (hold f fl hfl)]; exact hfl, hkey, hl⟩
  · intro u a hu
    rw [hphase] at hu
    have hut : u ≠ t := by
      rintro rfl
      rw [Function.update_self] at hu
      cases hu
    rw [Function.update_of_ne hut] at hu
    -- the new number named no flight, so no answer rests on it
    have hopen : ∀ fl, s.flights s.count = some fl → fl.closed = false := by
      intro fl hfl
      rw [h.fresh s.count le_rfl] at hfl
      cases hfl
    exact (h.answers u a hu).keep (keeps_of_open rfl rfl rfl rfl hflights hopen)

/-- A leader whose function ended as `e` has closed its flight storing what `e` leaves: the
returned value and error, or the zero value with a panic's or an exit's error. -/
theorem Inv.closed_flight (h : s.Inv) {t f : Nat} {e : FnEnd ν}
    (hp : s.phase t = .releasing f e) : s.Led t (e.stored s.zero).1 (e.stored s.zero).2 := by
  obtain ⟨k, -, -, hf⟩ := h.leads t f (by rw [hp]; rfl)
  rw [hp] at hf
  exact ⟨f, _, hf, rfl, rfl, rfl, rfl⟩

/-- A leader takes its closed flight out of the table and ends as its function did. -/
theorem Inv.release [DecidableEq κ] (h : s.Inv) {t f : Nat} {e : FnEnd ν}
    (hp : s.phase t = .releasing f e) {k : κ} (hk : s.asked t = some k) :
    ({ s.moveTo t (.done e.leaderAnswer) with table := s.table.filter (·.1 != k) } :
      DoCalls κ ν).Inv := by
  have hphase : ({ s.moveTo t (.done e.leaderAnswer) with
      table := s.table.filter (·.1 != k) } : DoCalls κ ν).phase =
      Function.update s.phase t (.done e.leaderAnswer) := rfl
  have ht : (s.phase t).leads = some f := by rw [hp]; rfl
  obtain ⟨k₀, hk₀, hmem, -⟩ := h.leads t f ht
  have hkk : k₀ = k := Option.some.inj (hk₀.symm.trans hk)
  subst hkk
  -- only `t` moves, to an answer that leads nothing
  have hother :
      ∀ u, (Function.update s.phase t (.done e.leaderAnswer) u).leads ≠ none → u ≠ t := by
    rintro u hu rfl
    rw [Function.update_self] at hu
    exact hu rfl
  refine ⟨?_, ?_, ?_, h.fresh, ?_, ?_, ?_⟩
  · exact List.Nodup.sublist (List.Sublist.map Prod.fst List.filter_sublist) h.nodup
  · intro k' g hkg
    obtain ⟨hkg, hne⟩ := List.mem_filter.mp hkg
    have hk'k : k' ≠ k₀ := by simpa using hne
    obtain ⟨u, hu, hk'⟩ := h.table_led k' g hkg
    have hut : u ≠ t := by
      rintro rfl
      rw [hk] at hk'
      exact hk'k (Option.some.inj hk').symm
    exact ⟨u, by rw [hphase, Function.update_of_ne hut]; exact hu, hk'⟩
  · intro u g hu
    rw [hphase] at hu ⊢
    have hut := hother u (by rw [hu]; exact Option.some_ne_none g)
    rw [Function.update_of_ne hut] at hu ⊢
    obtain ⟨k', hk', hmem', hg⟩ := h.leads u g hu
    -- the key of another leader is not the key taken out: the table holds it once
    have hk'k : k' ≠ k₀ := by
      rintro rfl
      have hgf : g = f := eq_of_mem_of_nodup_keys h.nodup hmem' hmem
      subst hgf
      exact hut (h.leader_unique hu ht)
    exact ⟨k', hk', List.mem_filter.mpr ⟨hmem', by simpa using hk'k⟩, hg⟩
  · intro g fl hg
    rw [hphase]
    by_cases hl : fl.leader = t
    · exact .inr ⟨e, by rw [hl, Function.update_self]⟩
    · rw [Function.update_of_ne hl]
      exact h.records g fl hg
  · intro u g hu
    rw [hphase] at hu
    have hut : u ≠ t := by
      rintro rfl
      rw [Function.update_self] at hu
      cases hu
    rw [Function.update_of_ne hut] at hu
    exact h.waiting u g hu
  · intro u a hu
    rw [hphase] at hu
    by_cases hut : u = t
    · subst hut
      rw [Function.update_self] at hu
      cases hu
      rw [FnEnd.leaderAnswer_holds]
      exact h.closed_flight hp
    · rw [Function.update_of_ne hut] at hu
      exact (h.answers u a hu).keep ⟨rfl, rfl, rfl, fun _ _ hg _ => hg, fun _ he => he⟩

/-- A context becomes done: an error once there stays. -/
theorem Inv.cancel (h : s.Inv) {t : Nat} (hnone : s.ctxErr t = none) (err : String) :
    ({ s with ctxErr := Function.update s.ctxErr t (some err) } : DoCalls κ ν).Inv where
  nodup := h.nodup
  table_led := h.table_led
  leads := h.leads
  fresh := h.fresh
  records := h.records
  waiting := h.waiting
  answers u a hu := by
    refine (h.answers u a hu).keep ⟨rfl, rfl, rfl, fun _ _ hf _ => hf, fun e he => ?_⟩
    by_cases hut : u = t
    · subst hut
      rw [hnone] at he
      cases he
    · exact (Function.update_of_ne hut _ _).trans he

/-- Every step keeps the invariant. -/
theorem Inv.next [DecidableEq κ] (h : s.Inv) {e : DoEvent κ ν} (he : s.Enabled e) :
    (s.next e).Inv := by
  cases e with
  | call t k =>
    have hp : s.phase t = .idle := he
    cases hl : s.table.lookup k with
    | some f =>
      simp only [DoCalls.next, hl]
      -- the caller follows the flight in the table, which another caller leads
      obtain ⟨u, hu, hku⟩ := h.table_led k f (mem_of_lookup_eq_some hl)
      obtain ⟨k', v, err, c, hk', -, hf⟩ := h.flight_of_leads hu
      have hkk : k' = k := Option.some.inj (hk'.symm.trans hku)
      subst hkk
      have hut : u ≠ t := by
        rintro rfl
        rw [hp] at hu
        cases hu
      refine (h.ask hp k' (some f)).moveTo_quiet
        (show (s.phase t).leads = none by rw [hp]; rfl)
        (h.not_leader (by rw [hp]; rfl) fun e he => by rw [hp] at he; cases he) rfl ?_ ?_
      · intro f' hf'
        cases hf'
        exact ⟨Function.update_self .., ⟨k', u, v, err, c⟩, hf, Function.update_self .., hut⟩
      · intro a ha'
        cases ha'
    | none =>
      simp only [DoCalls.next, hl]
      exact (h.ask hp k none).register hp (Function.update_self ..) hl
  | ret t v err | panic t text | exit t =>
    -- the leader's function ended; its flight, still open, takes what it left
    obtain ⟨f, hp⟩ := he
    simp only [DoCalls.next, DoCalls.finish, hp]
    exact h.advance (by rw [hp]; rfl) (fun k fl hr => by rw [hp] at hr; cases hr; rfl) rfl _
      fun k => by rw [hp]; rfl
  | publish t =>
    obtain ⟨f, e, hp⟩ := he
    simp only [DoCalls.next, hp]
    exact h.advance (by rw [hp]; rfl) (fun k fl hr => by rw [hp] at hr; cases hr; rfl) rfl _
      fun k => by rw [hp]; rfl
  | release t =>
    obtain ⟨f, e, hp⟩ := he
    obtain ⟨k, hk, -, -⟩ := h.leads t f (by rw [hp]; rfl)
    simp only [DoCalls.next, hp, hk]
    exact h.release hp hk
  | wake t =>
    obtain ⟨f, fl, hp, hf, hc⟩ := he
    obtain ⟨hj, fl', hfl', hkey, hl⟩ := h.waiting t f hp
    rw [hf] at hfl'
    cases hfl'
    simp only [DoCalls.next, hp, hf, hc, if_true]
    exact h.settle hp (.inl ⟨f, fl, hj, hf, hkey, hl, hc, rfl, rfl⟩)
  | giveUp t =>
    obtain ⟨⟨f, hp⟩, err, herr⟩ := he
    simp only [DoCalls.next, hp, herr]
    exact h.settle hp (.inr ⟨rfl, err, rfl, herr⟩)
  | cancel t err =>
    cases hc : s.ctxErr t with
    | some e =>
      simp only [DoCalls.next, hc]
      exact h
    | none =>
      simp only [DoCalls.next, hc]
      exact h.cancel hc err

theorem Inv.step [DecidableEq κ] (h : s.Inv) {s' : DoCalls κ ν} (hs : s.Step s') : s'.Inv := by
  obtain ⟨e, he, rfl⟩ := hs
  exact h.next he

theorem Reachable.inv [DecidableEq κ] (hs : s.Reachable) : s.Inv := by
  induction hs with
  | start zero => exact inv_start zero
  | step _ hstep ih => exact ih.step hstep

/-! ## One run per key -/

/-- When no call is in progress the table is empty: every flight in it has a leader still in its
call. -/
theorem Inv.table_empty (h : s.Inv) (hq : ∀ t, s.phase t = .idle ∨ ∃ a, s.phase t = .done a) :
    s.table = [] := by
  cases hT : s.table with
  | nil => rfl
  | cons kf rest =>
    obtain ⟨u, hu, -⟩ := h.table_led kf.1 kf.2 (by rw [hT]; exact List.mem_cons_self)
    rcases hq u with hi | ⟨a, ha⟩
    · rw [hi] at hu
      cases hu
    · rw [ha] at hu
      cases hu

/-- No flight names a follower as its leader, whether it still waits or answered with a shared
result. -/
theorem Inv.follower_not_leader (h : s.Inv) {t : Nat}
    (hf : (∃ f, s.phase t = .waiting f) ∨ ∃ v err, s.phase t = .done (.returned v err true)) :
    ∀ g fl, s.flights g = some fl → fl.leader ≠ t := by
  rcases hf with ⟨f, hp⟩ | ⟨v, err, hp⟩
  · exact h.not_leader (by rw [hp]; rfl) fun e he => by rw [hp] at he; cases he
  · refine h.not_leader (by rw [hp]; rfl) fun e he => ?_
    rw [hp] at he
    exact FnEnd.leaderAnswer_ne_shared e v err (DoPhase.done.inj he).symm

/-- A running function belongs to the leader of a flight registered under the key it asked
for, which a lookup of the key in the table finds, and which is still open and stores nothing. -/
theorem Inv.running_flight [DecidableEq κ] (h : s.Inv) {t f : Nat}
    (hp : s.phase t = .running f) :
    ∃ k, s.asked t = some k ∧ s.table.lookup k = some f ∧
      s.flights f = some ⟨k, t, s.zero, none, false⟩ := by
  obtain ⟨k, hk, hmem, hf⟩ := h.leads t f (by rw [hp]; rfl)
  rw [hp] at hf
  exact ⟨k, hk, lookup_eq_some_of_mem h.nodup hmem, hf⟩

end DoCalls

/-! ## Sequential calls -/

/-- A call leaves the keys in flight as it found them. -/
theorem FlightCall.run_snd (inFlight : List String) (c : FlightCall) :
    (c.run inFlight).2 = inFlight := by
  cases c with
  | mk key value error panic goexit nested =>
    simp only [FlightCall.run]
    split
    · rfl
    · rfl

theorem runFlights_go_snd (inFlight : List String) (calls : List FlightCall) :
    ∀ p ∈ runFlights.go inFlight calls, p.2 = inFlight.length := by
  induction calls with
  | nil =>
    intro p hp
    cases hp
  | cons c rest ih =>
    intro p hp
    have hrun : c.run inFlight = ((c.run inFlight).1, inFlight) :=
      Prod.ext rfl (FlightCall.run_snd inFlight c)
    rw [runFlights.go, hrun] at hp
    rcases List.mem_cons.mp hp with rfl | hp
    · rfl
    · exact ih p hp

namespace DoCalls

variable {κ ν : Type} [DecidableEq κ] {s : DoCalls κ ν}

/-- Over every interleaving of calls of `Do` on one group: at most one function per key runs at
a time, and it belongs to the caller that registered the flight a lookup of the key finds; a
leader ends with what its function returned, not shared, or panics again with its text, or
ends its thread, its flight closed and storing what the followers see (the panic's or the
exit's error with the zero value when the function did not return); a follower ends with
exactly what a closed flight of its key, led by another caller, stored, shared, or with the
zero value and its own context's error once that context is done, and no flight names it as its
leader, so its own function never ran; when no call is in progress no key is in flight. After
each of the sequential calls of `runFlights`, no key is in flight. -/
theorem shares_one_run_per_key (hs : s.Reachable) :
    (∀ t u f g, s.phase t = .running f → s.phase u = .running g → s.asked t = s.asked u →
      t = u) ∧
    (∀ t f, s.phase t = .running f → ∃ k, s.asked t = some k ∧ s.table.lookup k = some f ∧
      s.flights f = some ⟨k, t, s.zero, none, false⟩) ∧
    (∀ t f e, s.phase t = .releasing f e → s.Led t (e.stored s.zero).1 (e.stored s.zero).2) ∧
    (∀ t v err, s.phase t = .done (.returned v err false) → s.Led t v err) ∧
    (∀ t text, s.phase t = .done (.panicked text) →
      s.Led t s.zero (some ("singleflight: load panicked: " ++ text))) ∧
    (∀ t, s.phase t = .done .exited →
      s.Led t s.zero (some "singleflight: load called runtime.Goexit")) ∧
    (∀ t v err, s.phase t = .done (.returned v err true) →
      s.Joined t v err ∨ (v = s.zero ∧ ∃ e, err = some e ∧ s.ctxErr t = some e)) ∧
    (∀ t, ((∃ f, s.phase t = .waiting f) ∨ ∃ v err, s.phase t = .done (.returned v err true)) →
      ∀ f fl, s.flights f = some fl → fl.leader ≠ t) ∧
    ((∀ t, s.phase t = .idle ∨ ∃ a, s.phase t = .done a) → s.inFlight = 0) ∧
    ∀ calls, ∀ p ∈ runFlights calls, p.2 = 0 := by
  have h := hs.inv
  refine ⟨?_, fun t f hp => h.running_flight hp, fun t f e hp => h.closed_flight hp,
    fun t v err hp => h.answers t _ hp,
    fun t text hp => h.answers t _ hp, fun t hp => h.answers t _ hp,
    fun t v err hp => h.answers t _ hp, fun t hf => h.follower_not_leader hf, ?_, ?_⟩
  · intro t u f g ht hu hk
    exact h.leader_of_key_unique (by rw [ht]; rfl) (by rw [hu]; rfl) hk
  · intro hq
    show s.table.length = 0
    rw [h.table_empty hq]
    rfl
  · intro calls p hp
    exact runFlights_go_snd [] calls p hp

/-- Two callers ask for one key: the first leads and its function returns, the second follows
and takes the shared result once the flight is closed, then the leader takes the flight out of
the table. -/
theorem shares_one_run_per_key_two_callers :
    ∃ s : DoCalls Nat Nat, s.Reachable ∧
      s.phase 0 = .done (.returned 5 none false) ∧ s.phase 1 = .done (.returned 5 none true) ∧
      s.Led 0 5 none ∧
      (s.Joined 1 5 none ∨ (5 = s.zero ∧ ∃ e, (none : Option String) = some e ∧
        s.ctxErr 1 = some e)) ∧
      s.inFlight = 0 := by
  have h0 : (DoCalls.start 0 : DoCalls Nat Nat).Reachable := .start 0
  have h1 := h0.step ⟨.call 0 7, rfl, rfl⟩
  have h2 := h1.step ⟨.call 1 7, by show _ = DoPhase.idle; decide +kernel, rfl⟩
  have h3 := h2.step ⟨.ret 0 5 none, ⟨0, by decide +kernel⟩, rfl⟩
  have h4 := h3.step ⟨.publish 0, ⟨0, .returned 5 none, by decide +kernel⟩, rfl⟩
  have h5 := h4.step ⟨.wake 1, ⟨0, ⟨7, 0, 5, none, true⟩, by decide +kernel, by decide +kernel,
    rfl⟩, rfl⟩
  have h6 := h5.step ⟨.release 0, ⟨0, .returned 5 none, by decide +kernel⟩, rfl⟩
  obtain ⟨-, -, -, hled, -, -, hjoin, -, -, -⟩ := shares_one_run_per_key h6
  exact ⟨_, h6, by decide +kernel, by decide +kernel, hled 0 5 none (by decide +kernel),
    hjoin 1 5 none (by decide +kernel), by decide +kernel⟩

end DoCalls

end RecencyMap
