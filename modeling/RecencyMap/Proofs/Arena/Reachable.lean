import RecencyMap.Session.Arena
import RecencyMap.Proofs.Arena.Walks

/-!
# Reachable arenas

Any script of arena steps, started from a new arena, keeps the arena well formed. Each step
either raises exactly its documented fault and leaves the arena as it was, or completes; every
arena reached passes `validate`, and `WellFormed` states what its three walks check as facts
about the walks: the forward walk runs through `size` live cells from the head to the tail,
whose `next` names no cell, with matching back links and falling stamps; the walk back retraces
it; and the free chain threads the vacant cells, which with the live ones fill the array.
-/

namespace RecencyMap

variable {κ ν : Type}

/-- Whether a reply reports a fault. -/
def ArenaReply.isPanic : ArenaReply κ → Bool
  | .panicked _ => true
  | _ => false

namespace Arena

/-- The fault of using the slot `s` for `use`, when `s` is dead. -/
def deadFault (a : Arena κ ν) (use : SlotUse) (s : Slot) : Option ArenaFault :=
  if a.live s then none else some (.deadSlot use s)

theorem deadFault_eq_some {a : Arena κ ν} {use : SlotUse} {s : Slot} {f : ArenaFault} :
    a.deadFault use s = some f ↔ a.node? s = none ∧ f = .deadSlot use s := by
  unfold deadFault live
  cases a.node? s <;> simp [eq_comm]

theorem deadFault_eq_none {a : Arena κ ν} {use : SlotUse} {s : Slot} :
    a.deadFault use s = none ↔ ∃ n, a.node? s = some n := by
  unfold deadFault live
  cases a.node? s <;> simp

end Arena

/-- The fault a step raises on `a`, as documented: an insertion into a full list, an eviction
from an empty one, and any use of a dead slot. `age` reads the stamp and faults as `seq`. -/
def ArenaStep.fault? (a : Arena κ ν) : ArenaStep κ → Option ArenaFault
  | .insert .. => if a.isFull then some .full else none
  | .evictTail => if a.size = 0 then some .empty else none
  | .moveToHead s => a.deadFault .moveToHead s
  | .remove s => a.deadFault .remove s
  | .next s => a.deadFault .next s
  | .prev s => a.deadFault .prev s
  | .key s => a.deadFault .key s
  | .value s => a.deadFault .value s
  | .seq s | .age s => a.deadFault .seq s
  | .replace s _ => a.deadFault .replace s
  | _ => none

namespace Arena

/-- The arenas a script of steps reaches from a new arena with room for `c` entries. -/
inductive Reachable (c : Nat) : Arena κ String → Prop
  | new : Reachable c (Arena.empty c)
  | step {a : Arena κ String} (st : ArenaStep κ) : Reachable c a → Reachable c (a.perform st).2

/-- A step does on `a` what its documentation says: it raises its documented fault and leaves
`a` as it was or, when none applies, completes. -/
def Documented (a : Arena κ String) (st : ArenaStep κ) : Prop :=
  match st.fault? a with
  | some f => a.perform st = (.panicked f.message, a)
  | none => (a.perform st).1.isPanic = false

/-- The well-formedness of an arena with room for `c` entries: `validate` passes; the walk
forward from the head goes through `size` live cells, each linked on to the next and the tail
to no cell, with matching back links and falling stamps; the walk back from the tail retraces
it; and the free chain from `free` threads the dead cells, which with the live ones fill the
allocated cells, at most `c` of them. -/
structure WellFormed (c : Nat) (a : Arena κ ν) : Prop where
  validate_eq : a.validate = .ok ()
  head_eq_none_iff : a.head = none ↔ a.tail = none
  walk_length : a.toList.length = a.size
  walk_last : a.toList.getLast?.map Prod.fst = a.tail
  walk_next : a.toList.map (fun e => e.2.next) =
    ((a.toList.map fun e : Slot × Node κ ν => some e.1) ++ [none]).tail
  walk_prev : a.toList.map (fun e => e.2.prev) = (none :: a.toList.map fun e => some e.1).dropLast
  walk_seq : (a.toList.map fun e => e.2.seq).Pairwise (· > ·)
  seq_le : ∀ e ∈ a.toList, e.2.seq ≤ a.generation
  live_iff : ∀ s, a.live s = true ↔ s ∈ a.toList.map Prod.fst
  walk_back : a.chainBack a.cells.size a.tail = (a.toList.map Prod.fst).reverse
  free_threads : a.FreeThreads a.freeList
  free_dead : ∀ s ∈ a.freeList, a.live s = false
  count : a.freeList.length + a.size = a.cells.size
  cells_le : a.cells.size ≤ c

/-! ## A shaped arena is well formed -/

theorem Shape.wellFormed {a : Arena κ ν} {order : List Slot} (h : a.Shape order) :
    a.WellFormed a.capacity where
  validate_eq := h.validate_eq_ok
  head_eq_none_iff := h.head_eq_none_iff
  walk_length := h.toList_length
  walk_last := h.toList_last
  walk_next := h.next_along_toList
  walk_prev := h.prev_along_toList
  walk_seq := h.seq_along_toList
  seq_le e he := h.stamp_le e.1 e.2 (h.node?_of_mem_toList he)
  live_iff s := by
    rw [h.toList_slots, h.mem_iff]
    rfl
  walk_back := by
    rw [h.toList_slots]
    exact h.chainBack_tail (by have := h.count; omega)
  free_threads := h.free_threads
  free_dead s hs := by simp [live, h.free_threads.node?_eq_none hs]
  count := by
    rw [h.size_eq]
    exact h.count
  cells_le := h.cells_le

/-! ## Each step keeps the shape -/

section Steps

variable {a : Arena κ String} {order : List Slot}

theorem perform_read_snd {α : Type} (f : α → ArenaReply κ) (x : Except ArenaFault α) :
    (perform.read a f x).2 = a := by
  cases x <;> rfl

theorem perform_changed_error {α : Type} (f : α → ArenaReply κ × Arena κ String)
    (e : ArenaFault) : perform.changed a f (.error e) = (.panicked e.message, a) := rfl

theorem perform_changed_ok {α : Type} (f : α → ArenaReply κ × Arena κ String) (x : α) :
    perform.changed a f (.ok x) = f x := rfl

/-- `validate` reads the arena and leaves it as it was. -/
theorem perform_validate_snd : (a.perform .validate).2 = a := by
  simp only [Arena.perform]
  split <;> rfl

/-- On a shaped arena `validate` finds nothing. -/
theorem Shape.perform_validate (h : a.Shape order) : a.perform .validate = (.problem none, a) := by
  simp only [Arena.perform, h.validate_eq_ok]

/-- Every step keeps a shaped arena shaped and keeps its capacity. -/
theorem Shape.perform (h : a.Shape order) (st : ArenaStep κ) :
    ∃ order', (a.perform st).2.Shape order' ∧ (a.perform st).2.capacity = a.capacity := by
  -- a step that faults or only reads leaves the arena as it was
  have hsame : ∀ b, b = a → ∃ order', b.Shape order' ∧ b.capacity = a.capacity := by
    rintro b rfl
    exact ⟨order, h, rfl⟩
  cases st with
  | insert k v =>
    cases hr : a.insertAtHead k v with
    | error e => exact hsame _ (by simp only [Arena.perform, hr, perform_changed_error])
    | ok r =>
      obtain ⟨s, a'⟩ := r
      simp only [Arena.perform, hr, perform_changed_ok]
      exact ⟨s :: order, (h.insertAtHead hr).1, (insertAtHead_frame hr).1⟩
  | moveToHead s =>
    cases hr : a.moveToHead s with
    | error e => exact hsame _ (by simp only [Arena.perform, hr, perform_changed_error])
    | ok a' =>
      simp only [Arena.perform, hr, perform_changed_ok]
      exact ⟨s :: order.erase s, (h.moveToHead hr).1, (moveToHead_frame hr).1⟩
  | evictTail =>
    cases hr : a.evictTail with
    | error e => exact hsame _ (by simp only [Arena.perform, hr, perform_changed_error])
    | ok r =>
      obtain ⟨e, a'⟩ := r
      simp only [Arena.perform, hr, perform_changed_ok]
      obtain ⟨t, -, -, -, -, ht⟩ := h.evictTail hr
      exact ⟨order.erase t, ht, (evictTail_frame hr).1⟩
  | remove s =>
    cases hr : a.remove s with
    | error e => exact hsame _ (by simp only [Arena.perform, hr, perform_changed_error])
    | ok r =>
      obtain ⟨r, a'⟩ := r
      simp only [Arena.perform, hr, perform_changed_ok]
      exact ⟨order.erase s, (h.remove hr).1, (remove_frame hr).1⟩
  | replace s v =>
    cases hr : a.replace s v with
    | error e => exact hsame _ (by simp only [Arena.perform, hr, perform_changed_error])
    | ok r =>
      obtain ⟨old, a'⟩ := r
      simp only [Arena.perform, hr, perform_changed_ok]
      exact ⟨order, h.replace hr, (replace_frame hr).1⟩
  | next s | prev s | key s | value s | seq s | age s =>
    exact hsame _ (perform_read_snd _ _)
  | head | tail | live s | len | cap | generation | full => exact hsame _ rfl
  | validate => exact hsame _ perform_validate_snd

/-- A documented fault is raised, and leaves the arena as it was. -/
theorem Shape.perform_of_fault (h : a.Shape order) {st : ArenaStep κ} {f : ArenaFault}
    (hf : st.fault? a = some f) : a.perform st = (.panicked f.message, a) := by
  cases st with
  | insert k v =>
    have hfull : a.isFull = true := by
      by_contra hnot
      simp [ArenaStep.fault?, hnot] at hf
    have hfault : f = .full := by simpa [ArenaStep.fault?, hfull] using hf.symm
    simp [Arena.perform, Arena.insertAtHead, hfull, hfault, perform_changed_error]
  | evictTail =>
    have hsize : a.size = 0 := by
      by_contra hnot
      simp [ArenaStep.fault?, hnot] at hf
    have hfault : f = .empty := by simpa [ArenaStep.fault?, hsize] using hf.symm
    -- an empty order has no tail
    have htail : a.tail = none := by
      rw [h.tail_eq, List.getLast?_eq_none_iff, ← List.length_eq_zero_iff, ← h.size_eq]
      exact hsize
    simp [Arena.perform, Arena.evictTail, htail, hfault, perform_changed_error]
  | moveToHead s | remove s | next s | prev s | key s | value s | seq s | age s | replace s _ =>
    obtain ⟨hn, rfl⟩ := deadFault_eq_some.mp hf
    simp [Arena.perform, Arena.moveToHead, Arena.remove, next?, prev?, key?, value?, seq?, age?,
      Arena.replace, live?, hn, bind, Except.bind, perform.read, perform_changed_error]
  | head | tail | live s | len | cap | generation | full | validate =>
    simp [ArenaStep.fault?] at hf

/-- When no documented fault applies, the step completes. -/
theorem Shape.perform_completes (h : a.Shape order) {st : ArenaStep κ}
    (hf : st.fault? a = none) : (a.perform st).1.isPanic = false := by
  cases st with
  | insert k v =>
    have hfull : a.isFull = false := by
      by_contra hnot
      simp [ArenaStep.fault?, hnot] at hf
    -- an insertion that is not refused always finds a slot
    have hok : a.insertAtHead k v = .ok ((a.alloc k v).1, _) :=
      insertAtHead_eq_ok.mpr ⟨hfull, (a.alloc k v).2, rfl, rfl⟩
    simp [Arena.perform, hok, perform_changed_ok, ArenaReply.isPanic]
  | evictTail =>
    have hsize : a.size ≠ 0 := by
      intro hzero
      simp [ArenaStep.fault?, hzero] at hf
    -- a nonempty order has a last slot, that slot is the tail, and it is live
    have hne : order ≠ [] := by
      intro hnil
      apply hsize
      rw [h.size_eq, hnil, List.length_nil]
    obtain ⟨t, ht⟩ := Option.isSome_iff_exists.mp (List.getLast?_isSome.mpr hne)
    obtain ⟨n, hn⟩ := Option.isSome_iff_exists.mp (h.live t (List.mem_of_getLast? ht))
    have hrem : a.remove t = .ok (_, _) := remove_eq_ok.mpr ⟨n, hn, rfl, rfl⟩
    have hev : a.evictTail = .ok (_, _) :=
      evictTail_eq_ok.mpr ⟨t, _, h.tail_eq.trans ht, hrem, rfl⟩
    simp [Arena.perform, hev, perform_changed_ok, ArenaReply.isPanic]
  | moveToHead s =>
    obtain ⟨n, hn⟩ := deadFault_eq_none.mp hf
    have hmove : a.moveToHead s = .ok _ := moveToHead_eq_ok.mpr ⟨n, hn, rfl⟩
    simp [Arena.perform, hmove, perform_changed_ok, ArenaReply.isPanic]
  | remove s =>
    obtain ⟨n, hn⟩ := deadFault_eq_none.mp hf
    have hrem : a.remove s = .ok (_, _) := remove_eq_ok.mpr ⟨n, hn, rfl, rfl⟩
    simp [Arena.perform, hrem, perform_changed_ok, ArenaReply.isPanic]
  | replace s v =>
    obtain ⟨n, hn⟩ := deadFault_eq_none.mp hf
    have hrep : a.replace s v = .ok (_, _) := replace_eq_ok.mpr ⟨n, hn, rfl, rfl⟩
    simp [Arena.perform, hrep, perform_changed_ok, ArenaReply.isPanic]
  | next s | prev s | key s | value s | seq s | age s =>
    obtain ⟨n, hn⟩ := deadFault_eq_none.mp hf
    simp [Arena.perform, next?, prev?, key?, value?, seq?, age?, live?, hn, perform.read,
      ArenaReply.isPanic]
  | head | tail | live s | len | cap | generation | full =>
    simp [Arena.perform, ArenaReply.isPanic]
  | validate => simp [h.perform_validate, ArenaReply.isPanic]

theorem Shape.documented (h : a.Shape order) (st : ArenaStep κ) : a.Documented st := by
  unfold Documented
  cases hf : st.fault? a with
  | some f => exact h.perform_of_fault hf
  | none => exact h.perform_completes hf

/-- The slot an insertion reports lies below the capacity. -/
theorem Shape.perform_insert_slot (h : a.Shape order) {k : κ} {v : String} {s : Slot}
    (hs : (a.perform (.insert k v)).1 = .slot (some s)) : s < a.capacity := by
  cases hr : a.insertAtHead k v with
  | error e =>
    simp [Arena.perform, hr, perform_changed_error] at hs
  | ok r =>
    obtain ⟨s', a'⟩ := r
    simp only [Arena.perform, hr, perform_changed_ok, ArenaReply.slot.injEq,
      Option.some.injEq] at hs
    subst hs
    exact (h.insertAtHead hr).2

end Steps

/-! ## Reachable arenas -/

/-- Every reachable arena is shaped, with the capacity it was created with. -/
theorem Reachable.shape {c : Nat} {a : Arena κ String} (ha : Reachable c a) :
    a.capacity = c ∧ ∃ order, a.Shape order := by
  induction ha with
  | new => exact ⟨rfl, [], Shape.empty c⟩
  | step st _ ih =>
    obtain ⟨hcap, order, h⟩ := ih
    obtain ⟨order', h', hcap'⟩ := h.perform st
    exact ⟨hcap'.trans hcap, order', h'⟩

/-- Every arena a script reaches from a new one with room for `c ≤ maxCapacity` entries is
well formed; on it every step raises exactly its documented fault, leaving the arena as it was,
or completes; and the slot an insertion hands out lies below `c`, so it is never `noSlot`. -/
theorem reachable_wellFormed {c : Nat} (hc : c ≤ maxCapacity) {a : Arena κ String}
    (ha : Reachable c a) :
    a.WellFormed c ∧ (∀ st, a.Documented st) ∧
      ∀ k v s, (a.perform (.insert k v)).1 = .slot (some s) → s < c ∧ s ≠ noSlot := by
  obtain ⟨hcap, order, h⟩ := ha.shape
  subst hcap
  refine ⟨h.wellFormed, h.documented, ?_⟩
  intro k v s hs
  have hlt : s < a.capacity := h.perform_insert_slot hs
  have hbound : a.capacity < noSlot := by
    unfold noSlot
    unfold maxCapacity at hc
    omega
  exact ⟨hlt, Nat.ne_of_lt (Nat.lt_trans hlt hbound)⟩

/-- The arena after one insertion into a new arena with room for two entries. -/
theorem reachable_wellFormed_one_insert :
    2 ≤ maxCapacity ∧
      Reachable 2 ((Arena.empty 2 : Arena Nat String).perform (.insert 7 "seven")).2 ∧
      ((Arena.empty 2 : Arena Nat String).perform (.insert 7 "seven")).2.WellFormed 2 ∧
      (∀ st, ((Arena.empty 2 : Arena Nat String).perform (.insert 7 "seven")).2.Documented st) ∧
      ∀ k v s, ((((Arena.empty 2 : Arena Nat String).perform (.insert 7 "seven")).2.perform
        (.insert k v)).1 = .slot (some s) → s < 2 ∧ s ≠ noSlot) :=
  have hc : 2 ≤ maxCapacity := by decide
  have ha : Reachable 2 ((Arena.empty 2 : Arena Nat String).perform (.insert 7 "seven")).2 :=
    .step _ .new
  ⟨hc, ha, reachable_wellFormed hc ha⟩

end Arena

end RecencyMap
