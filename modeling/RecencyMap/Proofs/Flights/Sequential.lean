import RecencyMap.Proofs.Flights.Sharing

/-!
# Sequential calls are schedules of concurrent ones

The runnable group (`FlightCall.run`, `runFlights`) makes its calls one after another: the work
of a call makes its nested calls while its own key is in flight, and a follower's context is
already cancelled. Every such run is one schedule of the concurrent callers of `DoCalls`.
Number the calls in the order they are made. A leader registers its flight; its nested calls
run to their end while its function runs; its function then returns, panics or ends its
thread, and the leader closes the flight and takes it out of the table. A follower finds its
key in flight, its context is cancelled, and it gives up. Each caller ends with the answer the
sequential run gives, and the table ends as it started.

So the sequential results are answers of a reachable state of `DoCalls`, and what the
invariant of `DoCalls` says of answers holds of them.
-/

namespace RecencyMap

/-- The answer of a caller of `Do` that a sequential result stands for; nested results are the
answers of the nested callers. -/
def FlightResult.answer : FlightResult → DoAnswer String
  | .returned value error shared _ => .returned value error shared
  | .exited _ => .exited
  | .panicked text => .panicked text

/-- The caller an event moves. -/
def DoEvent.caller {κ ν : Type} : DoEvent κ ν → Nat
  | .call t _ | .ret t _ _ | .panic t _ | .exit t | .publish t | .release t | .wake t
  | .giveUp t | .cancel t _ => t

namespace DoCalls

variable {κ ν : Type} {s : DoCalls κ ν}

/-! ## Callers not yet used, and callers left alone -/

/-- Callers from `n` on have not called, and their contexts are not done. -/
def Fresh (s : DoCalls κ ν) (n : Nat) : Prop :=
  ∀ u, n ≤ u → s.phase u = .idle ∧ s.ctxErr u = none

/-- Callers below `n` are where they were in `s`, with the keys they asked for. -/
def SameBelow (s s' : DoCalls κ ν) (n : Nat) : Prop :=
  ∀ u, u < n → s'.phase u = s.phase u ∧ s'.asked u = s.asked u

theorem SameBelow.trans {s₁ s₂ s₃ : DoCalls κ ν} {n : Nat} (h₁ : s₁.SameBelow s₂ n)
    (h₂ : s₂.SameBelow s₃ n) : s₁.SameBelow s₃ n := by
  intro u hu
  obtain ⟨hp₁, ha₁⟩ := h₁ u hu
  obtain ⟨hp₂, ha₂⟩ := h₂ u hu
  exact ⟨hp₂.trans hp₁, ha₂.trans ha₁⟩

theorem SameBelow.mono {s' : DoCalls κ ν} {n m : Nat} (h : s.SameBelow s' m) (hnm : n ≤ m) :
    s.SameBelow s' n :=
  fun u hu => h u (Nat.lt_of_lt_of_le hu hnm)

theorem Fresh.mono {n m : Nat} (h : s.Fresh n) (hnm : n ≤ m) : s.Fresh m :=
  fun u hu => h u (Nat.le_trans hnm hu)

/-! ## What one event changes -/

theorem finish_running {t f : Nat} (hp : s.phase t = .running f) (e : FnEnd ν) :
    (s.finish t e).phase t = .finishing f e ∧ (s.finish t e).asked t = s.asked t ∧
      (s.finish t e).table = s.table := by
  simp [finish, hp, moveTo, updateFlight]

variable [DecidableEq κ]

theorem next_zero (s : DoCalls κ ν) (e : DoEvent κ ν) : (s.next e).zero = s.zero := by
  cases e <;> simp only [next, finish, register, moveTo, updateFlight] <;> (repeat' split) <;>
    rfl

/-- An event leaves every other caller where it was, with the key it asked for and its
context. -/
theorem next_frame (s : DoCalls κ ν) (e : DoEvent κ ν) {u : Nat} (hu : u ≠ e.caller) :
    (s.next e).phase u = s.phase u ∧ (s.next e).asked u = s.asked u ∧
      (s.next e).ctxErr u = s.ctxErr u := by
  cases e <;> simp only [DoEvent.caller] at hu <;>
    simp only [next, finish, register, moveTo, updateFlight] <;> (repeat' split) <;>
    simp [Function.update_of_ne hu]

theorem next_call_free (s : DoCalls κ ν) (t : Nat) {k : κ} (hl : s.table.lookup k = none) :
    (s.next (.call t k)).phase t = .running s.count ∧ (s.next (.call t k)).asked t = some k ∧
      (s.next (.call t k)).table = (k, s.count) :: s.table ∧
      (s.next (.call t k)).ctxErr t = s.ctxErr t := by
  simp [next, hl, register, moveTo]

theorem next_call_taken (s : DoCalls κ ν) (t : Nat) {k : κ} {f : Nat}
    (hl : s.table.lookup k = some f) :
    (s.next (.call t k)).phase t = .waiting f ∧ (s.next (.call t k)).table = s.table ∧
      (s.next (.call t k)).ctxErr t = s.ctxErr t := by
  simp [next, hl, moveTo]

theorem next_publish {t f : Nat} {e : FnEnd ν} (hp : s.phase t = .finishing f e) :
    (s.next (.publish t)).phase t = .releasing f e ∧
      (s.next (.publish t)).asked t = s.asked t ∧ (s.next (.publish t)).table = s.table := by
  simp [next, hp, moveTo, updateFlight]

theorem next_release {t f : Nat} {e : FnEnd ν} (hp : s.phase t = .releasing f e) {k : κ}
    (hk : s.asked t = some k) :
    (s.next (.release t)).phase t = .done e.leaderAnswer ∧
      (s.next (.release t)).table = s.table.filter (·.1 != k) := by
  simp [next, hp, hk, moveTo]

theorem next_cancel_fresh {t : Nat} (hc : s.ctxErr t = none) (err : String) :
    (s.next (.cancel t err)).ctxErr t = some err ∧
      (s.next (.cancel t err)).phase t = s.phase t ∧
      (s.next (.cancel t err)).table = s.table := by
  simp [next, hc]

theorem next_giveUp {t f : Nat} (hp : s.phase t = .waiting f) {err : String}
    (hc : s.ctxErr t = some err) :
    (s.next (.giveUp t)).phase t = .done (.returned s.zero (some err) true) ∧
      (s.next (.giveUp t)).table = s.table := by
  simp [next, hp, hc, moveTo]

/-- An event of caller `n` leaves the callers below it alone. -/
theorem sameBelow_next (s : DoCalls κ ν) (e : DoEvent κ ν) :
    s.SameBelow (s.next e) e.caller := by
  intro u hu
  obtain ⟨hp, ha, -⟩ := s.next_frame e (Nat.ne_of_lt hu)
  exact ⟨hp, ha⟩

/-- An event of caller `n` keeps the callers above it unused. -/
theorem Fresh.next {n : Nat} (h : s.Fresh n) (e : DoEvent κ ν) (hn : e.caller < n) :
    (s.next e).Fresh n := by
  intro u hu
  obtain ⟨hp, -, hc⟩ := s.next_frame e (Nat.ne_of_gt (Nat.lt_of_lt_of_le hn hu))
  rw [hp, hc]
  exact h u hu

theorem step_next {e : DoEvent κ ν} (he : s.Enabled e) : s.Step (s.next e) := ⟨e, he, rfl⟩

end DoCalls

/-! ## The schedules -/

namespace FlightCall

open DoCalls

variable {s : DoCalls String String} {n : Nat}

theorem lookup_eq_some_of_mem_keys {α β : Type} [DecidableEq α] {k : α} :
    ∀ {l : List (α × β)}, k ∈ l.map Prod.fst → ∃ b, l.lookup k = some b
  | [], h => by cases h
  | (k', b') :: l, h => by
    by_cases hk : k = k'
    · subst hk
      exact ⟨b', by simp [List.lookup]⟩
    · simp only [List.lookup, beq_false_of_ne hk]
      rcases List.mem_cons.mp h with h | h
      · exact absurd h hk
      · exact lookup_eq_some_of_mem_keys h

theorem lookup_eq_none_of_not_mem_keys {α β : Type} [DecidableEq α] {k : α}
    {l : List (α × β)} (h : k ∉ l.map Prod.fst) : l.lookup k = none := by
  cases hl : l.lookup k with
  | none => rfl
  | some b => exact absurd (List.mem_map.mpr ⟨(k, b), mem_of_lookup_eq_some hl, rfl⟩) h

/-- A follower of a key in flight whose context is then cancelled gives up at once, as every
follower of the sequential group does. -/
theorem follow_schedule (hzero : s.zero = "") (hfresh : s.Fresh n) {k : String}
    (hk : k ∈ s.table.map Prod.fst) :
    ∃ s', Relation.ReflTransGen DoCalls.Step s s' ∧
      s'.phase n = .done FlightResult.cancelled.answer ∧ s'.table = s.table ∧
      s'.zero = s.zero ∧ s'.Fresh (n + 1) ∧ s.SameBelow s' n := by
  obtain ⟨hidle, hnone⟩ := hfresh n le_rfl
  obtain ⟨f, hl⟩ := lookup_eq_some_of_mem_keys hk
  -- the call finds the flight, the context is cancelled, and the caller gives up
  set s₁ := s.next (.call n k)
  obtain ⟨hp₁, ht₁, hc₁⟩ := s.next_call_taken n hl
  set s₂ := s₁.next (.cancel n "context canceled")
  obtain ⟨hc₂, hp₂, ht₂⟩ := next_cancel_fresh (s := s₁) (hc₁.trans hnone) "context canceled"
  set s₃ := s₂.next (.giveUp n)
  obtain ⟨hp₃, ht₃⟩ := next_giveUp (s := s₂) (hp₂.trans hp₁) hc₂
  have hrun : Relation.ReflTransGen DoCalls.Step s s₃ :=
    ((Relation.ReflTransGen.single (step_next (e := .call n k) hidle)).tail
      (step_next (e := .cancel n "context canceled") trivial)).tail
      (step_next (e := .giveUp n) ⟨⟨f, hp₂.trans hp₁⟩, _, hc₂⟩)
  have hzero₃ : s₃.zero = s.zero := by
    simp only [s₃, s₂, s₁, next_zero]
  refine ⟨s₃, hrun, ?_, by rw [ht₃, ht₂, ht₁], hzero₃, ?_, ?_⟩
  · rw [hp₃]
    simp only [s₂, s₁, next_zero, hzero]
    rfl
  · have hf : s.Fresh (n + 1) := hfresh.mono (Nat.le_succ n)
    exact ((hf.next (.call n k) (Nat.lt_succ_self n)).next (.cancel n "context canceled")
      (Nat.lt_succ_self n)).next (.giveUp n) (Nat.lt_succ_self n)
  · have h₁ : s.SameBelow s₁ n := s.sameBelow_next (.call n k)
    have h₂ : s₁.SameBelow s₂ n := s₁.sameBelow_next (.cancel n "context canceled")
    have h₃ : s₂.SameBelow s₃ n := s₂.sameBelow_next (.giveUp n)
    exact (h₁.trans h₂).trans h₃

/-- How the work of a call ends once its nested calls are made. -/
def workEnd (value : String) (error panic : Option String) (goexit : Bool) : FnEnd String :=
  if goexit then .exited
  else match panic with
    | some text => .panicked text
    | none => .returned value error

/-- A call whose key is free leads, and ends as its work does. -/
theorem run_answer_of_free {key value : String} {error panic : Option String} {goexit : Bool}
    {nested : List FlightCall} {inFlight : List String} (hk : key ∉ inFlight) :
    ((FlightCall.mk key value error panic goexit nested).run inFlight).1.answer =
      (workEnd value error panic goexit).leaderAnswer := by
  cases goexit <;> cases panic <;> simp [run, hk, workEnd, FlightResult.answer, FnEnd.leaderAnswer]

/-- A call whose key is in flight follows, and gives up with the cancellation. -/
theorem run_answer_of_taken {key value : String} {error panic : Option String} {goexit : Bool}
    {nested : List FlightCall} {inFlight : List String} (hk : key ∈ inFlight) :
    ((FlightCall.mk key value error panic goexit nested).run inFlight).1 =
      FlightResult.cancelled := by
  simp [run, hk]

/-- Each way the work can end is an event of the leader, which it can take while its function
runs, and which stores what the work left. -/
theorem work_event (s : DoCalls String String) (t : Nat) (value : String)
    (error panic : Option String) (goexit : Bool) :
    ∃ e : DoEvent String String, e.caller = t ∧
      ((∃ f, s.phase t = .running f) → s.Enabled e) ∧
      s.next e = s.finish t (workEnd value error panic goexit) := by
  cases goexit with
  | true => exact ⟨.exit t, rfl, id, rfl⟩
  | false =>
    cases panic with
    | some text => exact ⟨.panic t text, rfl, id, rfl⟩
    | none => exact ⟨.ret t value error, rfl, id, rfl⟩

theorem runAll_cons_fst (inFlight : List String) (c : FlightCall) (rest : List FlightCall) :
    (runAll inFlight (c :: rest)).1 = (c.run inFlight).1 :: (runAll inFlight rest).1 := by
  have hrun : c.run inFlight = ((c.run inFlight).1, inFlight) :=
    Prod.ext rfl (run_snd inFlight c)
  rw [runAll, hrun]

/-- A leader registers its flight; its nested calls run while its function runs, leaving the
table as they found it; its work then ends, and it closes the flight, takes it out of the table
and ends as the work did. -/
theorem lead_schedule (hzero : s.zero = "") (hfresh : s.Fresh n) {key value : String}
    {error panic : Option String} {goexit : Bool} (hk : key ∉ s.table.map Prod.fst)
    (hnested : ∀ {s : DoCalls String String} {n : Nat}, s.zero = "" → s.Fresh n →
      ∃ s' n', Relation.ReflTransGen DoCalls.Step s s' ∧ s'.table = s.table ∧
        s'.zero = s.zero ∧ n ≤ n' ∧ s'.Fresh n' ∧ s.SameBelow s' n) :
    ∃ s' n', Relation.ReflTransGen DoCalls.Step s s' ∧
      s'.phase n = .done (workEnd value error panic goexit).leaderAnswer ∧ s'.table = s.table ∧
      s'.zero = s.zero ∧ n < n' ∧ s'.Fresh n' ∧ s.SameBelow s' n := by
  obtain ⟨hidle, -⟩ := hfresh n le_rfl
  -- the call finds the key free and registers a flight
  set s₁ := s.next (.call n key)
  obtain ⟨hp₁, ha₁, ht₁, -⟩ := s.next_call_free n (lookup_eq_none_of_not_mem_keys hk)
  have hf₁ : s₁.Fresh (n + 1) :=
    (hfresh.mono (Nat.le_succ n)).next (.call n key) (Nat.lt_succ_self n)
  -- the nested calls leave the leader running
  obtain ⟨s₂, n₂, hrun₂, ht₂, hz₂, hn₂, hf₂, hb₂⟩ := hnested ((s.next_zero _).trans hzero) hf₁
  obtain ⟨hp₂, ha₂⟩ := hb₂ n (Nat.lt_succ_self n)
  -- the work ends, the flight is closed, and the leader leaves the table
  obtain ⟨e, hec, hen, hnext⟩ := work_event s₂ n value error panic goexit
  set s₃ := s₂.next e
  obtain ⟨hp₃, ha₃, ht₃⟩ := finish_running (hp₂.trans hp₁) (workEnd value error panic goexit)
  rw [← hnext] at hp₃ ha₃ ht₃
  set s₄ := s₃.next (.publish n)
  obtain ⟨hp₄, ha₄, ht₄⟩ := next_publish hp₃
  set s₅ := s₄.next (.release n)
  obtain ⟨hp₅, ht₅⟩ := next_release hp₄ (ha₄.trans (ha₃.trans (ha₂.trans ha₁)))
  have hrun : Relation.ReflTransGen DoCalls.Step s s₅ :=
    ((((Relation.ReflTransGen.single (step_next (e := .call n key) hidle)).trans hrun₂).tail
      (step_next (hen ⟨_, hp₂.trans hp₁⟩))).tail (step_next (e := .publish n) ⟨_, _, hp₃⟩)).tail
      (step_next (e := .release n) ⟨_, _, hp₄⟩)
  -- the flight's key was not in the table before
  have htable : s₅.table = s.table := by
    rw [ht₅, ht₄, ht₃, ht₂, ht₁, List.filter_cons_of_neg (by simp), List.filter_eq_self]
    intro p hp
    have hne : p.1 ≠ key := fun h => hk (List.mem_map.mpr ⟨p, hp, h⟩)
    simpa using hne
  have hzero₅ : s₅.zero = s.zero := by
    simp only [s₅, s₄, s₃, next_zero, hz₂]
  have hfresh₅ : s₅.Fresh n₂ := by
    have hlt : n < n₂ := Nat.lt_of_lt_of_le (Nat.lt_succ_self n) hn₂
    exact ((hf₂.next e (hec ▸ hlt)).next (.publish n) hlt).next (.release n) hlt
  have hsame : s.SameBelow s₅ n := by
    have h₁ : s.SameBelow s₁ n := s.sameBelow_next (.call n key)
    have h₃ : s₂.SameBelow s₃ n := hec ▸ s₂.sameBelow_next e
    have h₄ : s₃.SameBelow s₄ n := s₃.sameBelow_next (.publish n)
    have h₅ : s₄.SameBelow s₅ n := s₄.sameBelow_next (.release n)
    exact (((h₁.trans (hb₂.mono (Nat.le_succ n))).trans h₃).trans h₄).trans h₅
  exact ⟨s₅, n₂, hrun, hp₅, htable, hzero₅, Nat.lt_of_lt_of_le (Nat.lt_succ_self n) hn₂,
    hfresh₅, hsame⟩

mutual

/-- A call made with the table's keys in flight, numbered `n`, with callers from `n` on unused,
is a schedule of the concurrent callers that ends with caller `n` answering as the call
returns; it leaves the table and the callers below `n` as they were. The recursion is on the
call and its nested calls. -/
theorem run_schedule : ∀ (c : FlightCall) {s : DoCalls String String} {n : Nat},
    s.zero = "" → s.Fresh n →
    ∃ s' n', Relation.ReflTransGen DoCalls.Step s s' ∧
      s'.phase n = .done (c.run (s.table.map Prod.fst)).1.answer ∧ s'.table = s.table ∧
      s'.zero = s.zero ∧ n < n' ∧ s'.Fresh n' ∧ s.SameBelow s' n
  | .mk key value error panic goexit nested, s, n, hzero, hfresh => by
    by_cases hk : key ∈ s.table.map Prod.fst
    · obtain ⟨s', hrun, hp, ht, hz, hf, hb⟩ := follow_schedule hzero hfresh hk
      refine ⟨s', n + 1, hrun, ?_, ht, hz, Nat.lt_succ_self n, hf, hb⟩
      rw [hp, run_answer_of_taken hk]
    · have hnested : ∀ {s : DoCalls String String} {n : Nat}, s.zero = "" → s.Fresh n →
          ∃ s' n', Relation.ReflTransGen DoCalls.Step s s' ∧ s'.table = s.table ∧
            s'.zero = s.zero ∧ n ≤ n' ∧ s'.Fresh n' ∧ s.SameBelow s' n := by
        intro s n hzero hfresh
        obtain ⟨s', n', -, hrun, -, ht, hz, hn, hf, hb, -⟩ := runAll_schedule nested hzero hfresh
        exact ⟨s', n', hrun, ht, hz, hn, hf, hb⟩
      obtain ⟨s', n', hrun, hp, ht, hz, hn, hf, hb⟩ := lead_schedule hzero hfresh hk hnested
      refine ⟨s', n', hrun, ?_, ht, hz, hn, hf, hb⟩
      rw [hp, run_answer_of_free hk]

/-- Calls made one after another, numbered from `n` on, are a schedule of the concurrent
callers that ends with each caller answering as its call returns. -/
theorem runAll_schedule : ∀ (cs : List FlightCall) {s : DoCalls String String} {n : Nat},
    s.zero = "" → s.Fresh n →
    ∃ s' n' ts, Relation.ReflTransGen DoCalls.Step s s' ∧
      List.Forall₂ (fun r t => s'.phase t = .done (FlightResult.answer r))
        (runAll (s.table.map Prod.fst) cs).1 ts ∧
      s'.table = s.table ∧ s'.zero = s.zero ∧ n ≤ n' ∧ s'.Fresh n' ∧ s.SameBelow s' n ∧
      ∀ t ∈ ts, n ≤ t ∧ t < n'
  | [], s, n, _, hfresh =>
    ⟨s, n, [], .refl, by simp [runAll], rfl, rfl, le_rfl, hfresh, fun _ _ => ⟨rfl, rfl⟩,
      fun _ ht => absurd ht List.not_mem_nil⟩
  | c :: rest, s, n, hzero, hfresh => by
    obtain ⟨s₁, n₁, hrun₁, hp₁, ht₁, hz₁, hn₁, hf₁, hb₁⟩ := run_schedule c hzero hfresh
    obtain ⟨s₂, n₂, ts, hrun₂, hans, ht₂, hz₂, hn₂, hf₂, hb₂, hts⟩ :=
      runAll_schedule rest (hz₁.trans hzero) hf₁
    rw [ht₁] at hans
    -- the first caller's answer stays while the later callers run
    have hfirst : s₂.phase n = .done (c.run (s.table.map Prod.fst)).1.answer :=
      ((hb₂ n hn₁).1).trans hp₁
    refine ⟨s₂, n₂, n :: ts, hrun₁.trans hrun₂, ?_, ht₂.trans ht₁, hz₂.trans hz₁, by omega, hf₂,
      hb₁.trans (hb₂.mono (Nat.le_of_lt hn₁)), ?_⟩
    · rw [runAll_cons_fst]
      exact .cons hfirst hans
    · intro t ht
      rcases List.mem_cons.mp ht with rfl | ht
      · omega
      · have := hts t ht
        omega

end

theorem runFlights_go_eq (inFlight : List String) (calls : List FlightCall) :
    runFlights.go inFlight calls = (runAll inFlight calls).1.map fun r => (r, inFlight.length) := by
  induction calls with
  | nil => rfl
  | cons c rest ih =>
    have hrun : c.run inFlight = ((c.run inFlight).1, inFlight) :=
      Prod.ext rfl (run_snd inFlight c)
    rw [runFlights.go, hrun, runAll_cons_fst]
    simp only [List.map_cons]
    rw [ih]

end FlightCall

theorem DoCalls.Reachable.steps {s s' : DoCalls String String} (hs : s.Reachable)
    (h : Relation.ReflTransGen DoCalls.Step s s') : s'.Reachable := by
  induction h with
  | refl => exact hs
  | tail _ hstep ih => exact ih.step hstep

/-- The sequential calls of `runFlights` are a schedule of concurrent callers of an idle group:
some reachable state has every call's caller, numbered in the order the calls are made, ending
with the answer the call returns, and no key in flight. -/
theorem runFlights_schedule (calls : List FlightCall) :
    ∃ (s : DoCalls String String) (ts : List Nat), s.Reachable ∧
      List.Forall₂ (fun p t => s.phase t = .done p.1.answer) (runFlights calls) ts ∧
      s.inFlight = 0 := by
  have hfresh : (DoCalls.start "" : DoCalls String String).Fresh 0 := fun _ _ => ⟨rfl, rfl⟩
  obtain ⟨s, -, ts, hrun, hans, ht, -, -, -, -, -⟩ := FlightCall.runAll_schedule calls rfl hfresh
  refine ⟨s, ts, (DoCalls.Reachable.start "").steps hrun, ?_, ?_⟩
  · show List.Forall₂ _ (runFlights.go [] calls) ts
    rw [FlightCall.runFlights_go_eq, List.forall₂_map_left_iff]
    exact hans
  · show s.table.length = 0
    rw [ht]
    rfl

end RecencyMap
