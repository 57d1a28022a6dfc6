import RecencyMap.Proofs.Arena.Links

/-!
# What each arena operation does

For every operation that changes an arena, an equation that says when it succeeds and what it
returns, in terms of the cell primitives of `RecencyMap.Proofs.Arena.Links`:

* an insertion takes the slot `alloc` hands out, stamps it and links it in front;
* a move to the front stamps the slot and, unless it is the head already, unlinks it and
  links it in front;
* a removal unlinks the slot, vacates its cell and puts it on top of the free chain;
* an eviction is the removal of the tail; a replacement rewrites one value.

Each operation faults exactly when the slot it names is not live, or, for an insertion and an
eviction, when the list is full or empty; the equations below say so by their right-hand
sides.
-/

namespace RecencyMap
namespace Arena

variable {κ ν : Type}

/-! ## Cells -/

theorem lt_size_of_isSome {a : Arena κ ν} {s : Slot} (h : (a.node? s).isSome) :
    s < a.cells.size := by
  unfold node? at h
  by_contra hs
  rw [Array.getElem?_eq_none (Nat.le_of_not_lt hs)] at h
  exact Bool.false_ne_true h

/-- A vacant cell is not a live one. -/
theorem ne_of_vacant {a : Arena κ ν} {s t : Slot} (hs : (a.node? s).isSome)
    (ht : a.node? t = none) : s ≠ t := by
  rintro rfl
  rw [ht] at hs
  exact Bool.false_ne_true hs

/-- Vacating the cell at `s` leaves every other cell as it was. -/
theorem node?_vacate (a : Arena κ ν) (s t : Slot) (x : Option Slot) :
    ({ a with cells := a.cells.setIfInBounds s (.vacant x) } : Arena κ ν).node? t =
      if s = t then none else a.node? t := by
  unfold node?
  rw [Array.getElem?_setIfInBounds]
  by_cases hst : s = t
  · rw [if_pos hst, if_pos hst]
    split <;> rfl
  · rw [if_neg hst, if_neg hst]

theorem live?_eq_ok {a : Arena κ ν} {use : SlotUse} {s : Slot} {n : Node κ ν} :
    a.live? use s = .ok n ↔ a.node? s = some n := by
  unfold live?
  cases a.node? s <;> simp

/-! ## Allocation and stamping -/

/-- `alloc` hands out the top of the free chain, else the next new slot. -/
theorem alloc_slot {a b : Arena κ ν} {k : κ} {v : ν} {s : Slot} (h : a.alloc k v = (s, b)) :
    s = a.free.getD a.cells.size := by
  unfold alloc at h
  cases hf : a.free <;> simp [hf] at h <;> simp [h.1]

/-- `alloc` touches only the cells and the free chain. -/
theorem alloc_frame {a b : Arena κ ν} {k : κ} {v : ν} {s : Slot} (h : a.alloc k v = (s, b)) :
    b.head = a.head ∧ b.tail = a.tail ∧ b.size = a.size ∧ b.capacity = a.capacity ∧
      b.generation = a.generation := by
  unfold alloc at h
  cases hf : a.free <;> simp [hf] at h <;> simp [← h.2]


/-- The slot `alloc` hands out holds the new entry; every other cell is as it was. -/
theorem alloc_node? {a b : Arena κ ν} {k : κ} {v : ν} {s : Slot} (h : a.alloc k v = (s, b))
    (hin : ∀ t ∈ a.free, t < a.cells.size) (t : Slot) :
    b.node? t = if s = t then
      some { key := k, value := v, prev := none, next := none, seq := 0 } else a.node? t := by
  unfold alloc at h
  cases hf : a.free with
  | none =>
    simp only [hf, Prod.mk.injEq] at h
    obtain ⟨rfl, rfl⟩ := h
    simp only [node?, Array.getElem?_push]
    by_cases ht : t = a.cells.size
    · simp [ht, Cell.node?]
    · simp [ht, Ne.symm ht]
  | some r =>
    simp only [hf, Prod.mk.injEq] at h
    obtain ⟨rfl, rfl⟩ := h
    have hr : r < a.cells.size := hin r (by simp [hf])
    simp only [node?, Array.getElem?_setIfInBounds]
    by_cases hrt : r = t
    · subst hrt
      simp [hr, Cell.node?]
    · simp [hrt]

/-- The arena with the cell at `s` stamped with the generation `g`, which becomes the arena's
generation. -/
def restamp (a : Arena κ ν) (s : Slot) (g : Nat) : Arena κ ν :=
  { a with generation := g }.modifyNode s fun n => { n with seq := g }

theorem restamp_node? (a : Arena κ ν) (s : Slot) (g : Nat) (t : Slot) :
    (a.restamp s g).node? t =
      if s = t then (a.node? t).map (fun n => { n with seq := g }) else a.node? t :=
  node?_modifyNode _ s t _

@[simp] theorem restamp_head (a : Arena κ ν) (s : Slot) (g : Nat) :
    (a.restamp s g).head = a.head := rfl

@[simp] theorem restamp_tail (a : Arena κ ν) (s : Slot) (g : Nat) :
    (a.restamp s g).tail = a.tail := rfl

@[simp] theorem restamp_free (a : Arena κ ν) (s : Slot) (g : Nat) :
    (a.restamp s g).free = a.free := rfl

@[simp] theorem restamp_size (a : Arena κ ν) (s : Slot) (g : Nat) :
    (a.restamp s g).size = a.size := rfl

@[simp] theorem restamp_capacity (a : Arena κ ν) (s : Slot) (g : Nat) :
    (a.restamp s g).capacity = a.capacity := rfl

@[simp] theorem restamp_generation (a : Arena κ ν) (s : Slot) (g : Nat) :
    (a.restamp s g).generation = g := rfl

@[simp] theorem restamp_cells_size (a : Arena κ ν) (s : Slot) (g : Nat) :
    (a.restamp s g).cells.size = a.cells.size := Array.size_modify

theorem restamp_links (a : Arena κ ν) (s : Slot) (g : Nat) (t : Slot) :
    ((a.restamp s g).node? t).map Node.links = (a.node? t).map Node.links := by
  rw [restamp_node?]
  split
  · rw [Option.map_map]
    rfl
  · rfl

/-! ## The operations -/

/-- A successful insertion takes the slot `alloc` gives, stamps it with the next generation,
links it in front and counts it. -/
theorem insertAtHead_eq_ok {a : Arena κ ν} {k : κ} {v : ν} {s : Slot} {a' : Arena κ ν} :
    a.insertAtHead k v = .ok (s, a') ↔ a.isFull = false ∧ ∃ b, a.alloc k v = (s, b) ∧
      a' = { (b.restamp s (a.generation + 1)).linkHead s with size := a.size + 1 } := by
  unfold insertAtHead
  cases halloc : a.alloc k v with
  | mk s0 b =>
    obtain ⟨-, -, hsz, -, hg⟩ := alloc_frame halloc
    by_cases hfull : a.isFull
    · simp [hfull]
    · simp only [hfull, Bool.false_eq_true, if_false, Except.ok.injEq, Prod.mk.injEq]
      constructor
      · rintro ⟨rfl, rfl⟩
        simp [restamp, hg, hsz]
      · rintro ⟨-, b', ⟨rfl, rfl⟩, rfl⟩
        exact ⟨rfl, by simp [restamp, hg, hsz]⟩

/-- A successful move to the front stamps the slot with the next generation and, unless it is
already the head, unlinks it and links it in front. -/
theorem moveToHead_eq_ok {a a' : Arena κ ν} {s : Slot} :
    a.moveToHead s = .ok a' ↔ ∃ n, a.node? s = some n ∧
      a' = if a.head = some s then a.restamp s (a.generation + 1)
        else ((a.restamp s (a.generation + 1)).unlink s n).linkHead s := by
  unfold moveToHead
  cases hn : a.node? s with
  | none => simp [live?, hn, bind, Except.bind]
  | some n =>
    simp only [live?, hn, bind, Except.bind, Option.some.injEq, exists_eq_left']
    by_cases hh : a.head = some s <;> simp [hh, restamp, pure, Except.pure] <;> exact eq_comm

/-- A successful removal unlinks the live cell at `s`, vacates it with a link to the old top of
the free chain, makes `s` the new top, and hands back what the cell held with the neighbours it
had. -/
theorem remove_eq_ok {a a' : Arena κ ν} {s : Slot} {r : Removal κ ν} :
    a.remove s = .ok (r, a') ↔ ∃ n, a.node? s = some n ∧
      r = { key := n.key, value := n.value, next := n.next, prev := n.prev } ∧
      a' = { (a.unlink s n) with
        cells := (a.unlink s n).cells.setIfInBounds s (.vacant a.free), free := some s,
        size := a.size - 1, generation := a.generation + 1 } := by
  unfold remove
  cases hn : a.node? s with
  | none => simp [live?, hn, bind, Except.bind]
  | some n =>
    simp only [live?, hn, bind, Except.bind, pure, Except.pure, Except.ok.injEq, Prod.mk.injEq,
      Option.some.injEq, exists_eq_left', unlink_free, unlink_size, unlink_generation]
    constructor
    · rintro ⟨rfl, rfl⟩
      exact ⟨rfl, rfl⟩
    · rintro ⟨rfl, rfl⟩
      exact ⟨rfl, rfl⟩

theorem evictTail_eq_ok {a a' : Arena κ ν} {e : κ × ν} :
    a.evictTail = .ok (e, a') ↔ ∃ t r, a.tail = some t ∧ a.remove t = .ok (r, a') ∧
      e = (r.key, r.value) := by
  unfold evictTail
  cases ht : a.tail with
  | none => simp
  | some t =>
    cases hr : a.remove t with
    | error f =>
      simp only [bind, Except.bind, hr]
      constructor
      · intro h
        cases h
      · rintro ⟨t', r, ht', hr', -⟩
        cases ht'
        rw [hr] at hr'
        cases hr'
    | ok p =>
      obtain ⟨r, b⟩ := p
      simp only [bind, Except.bind, hr, pure, Except.pure, Except.ok.injEq, Prod.mk.injEq]
      constructor
      · rintro ⟨rfl, rfl⟩
        exact ⟨t, r, rfl, hr, rfl⟩
      · rintro ⟨t', r', ht', hr', rfl⟩
        cases ht'
        rw [hr] at hr'
        cases hr'
        exact ⟨rfl, rfl⟩

theorem replace_eq_ok {a a' : Arena κ ν} {s : Slot} {v old : ν} :
    a.replace s v = .ok (old, a') ↔ ∃ n, a.node? s = some n ∧ old = n.value ∧
      a' = a.modifyNode s fun m => { m with value := v } := by
  unfold replace
  cases hn : a.node? s with
  | none => simp [live?, hn, bind, Except.bind]
  | some n =>
    simp only [live?, hn, bind, Except.bind, pure, Except.pure, Except.ok.injEq, Prod.mk.injEq,
      Option.some.injEq, exists_eq_left']
    constructor
    · rintro ⟨rfl, rfl⟩
      exact ⟨rfl, rfl⟩
    · rintro ⟨rfl, rfl⟩
      exact ⟨rfl, rfl⟩

/-! ## Capacity and generation

Every change keeps the capacity; every structural change bumps the generation by one, and
`replace` leaves it alone. -/

theorem insertAtHead_frame {a a' : Arena κ ν} {k : κ} {v : ν} {s : Slot}
    (h : a.insertAtHead k v = .ok (s, a')) :
    a'.capacity = a.capacity ∧ a'.generation = a.generation + 1 := by
  obtain ⟨-, b, hb, rfl⟩ := insertAtHead_eq_ok.mp h
  have hcap := (alloc_frame hb).2.2.2.1
  simp [hcap]

theorem moveToHead_frame {a a' : Arena κ ν} {s : Slot} (h : a.moveToHead s = .ok a') :
    a'.capacity = a.capacity ∧ a'.generation = a.generation + 1 := by
  obtain ⟨n, -, rfl⟩ := moveToHead_eq_ok.mp h
  split <;> simp

theorem remove_frame {a a' : Arena κ ν} {s : Slot} {r : Removal κ ν}
    (h : a.remove s = .ok (r, a')) :
    a'.capacity = a.capacity ∧ a'.generation = a.generation + 1 := by
  obtain ⟨n, -, -, rfl⟩ := remove_eq_ok.mp h
  simp

theorem evictTail_frame {a a' : Arena κ ν} {e : κ × ν} (h : a.evictTail = .ok (e, a')) :
    a'.capacity = a.capacity ∧ a'.generation = a.generation + 1 := by
  obtain ⟨t, r, -, hr, -⟩ := evictTail_eq_ok.mp h
  exact remove_frame hr

theorem replace_frame {a a' : Arena κ ν} {s : Slot} {v old : ν}
    (h : a.replace s v = .ok (old, a')) :
    a'.capacity = a.capacity ∧ a'.generation = a.generation := by
  obtain ⟨n, -, -, rfl⟩ := replace_eq_ok.mp h
  simp

/-! ## The free chain

An insertion takes the top of the free chain, whose link becomes the new top, else a new cell;
a removal puts its slot on top; nothing else touches the chain. -/

section FreeChain

variable {a a' : Arena κ ν} {l : List Slot}

/-- Restamping edits one live cell, so it keeps the free chain. -/
theorem FreeThreads.restamp (h : a.FreeThreads l) (s : Slot) (g : Nat) :
    (a.restamp s g).FreeThreads l :=
  ((h.of_cells (b := { a with generation := g }) rfl fun _ _ => rfl).modifyNode s _)

/-- `alloc` pops the top of the free chain, or grows the cells when the chain is empty. -/
theorem FreeThreads.alloc (h : a.FreeThreads l) {k : κ} {v : ν} {s : Slot} {b : Arena κ ν}
    (halloc : a.alloc k v = (s, b)) :
    b.FreeThreads l.tail ∧ s = l.headD a.cells.size ∧
      b.cells.size = a.cells.size + (if l = [] then 1 else 0) := by
  unfold Arena.alloc at halloc
  cases l with
  | nil =>
    rw [h.head_eq] at halloc
    simp only [List.head?_nil, Prod.mk.injEq] at halloc
    obtain ⟨rfl, rfl⟩ := halloc
    exact ⟨⟨List.nodup_nil, rfl, by simp⟩, rfl, by simp⟩
  | cons r rest =>
    rw [h.head_eq] at halloc
    simp only [List.head?_cons, Prod.mk.injEq] at halloc
    obtain ⟨rfl, rfl⟩ := halloc
    have hr : r ∉ rest := (List.nodup_cons.mp h.nodup).1
    have hcell := h.cell_eq r List.mem_cons_self
    rw [nextIn_cons_self] at hcell
    refine ⟨⟨(List.nodup_cons.mp h.nodup).2, ?_, fun t ht => ?_⟩, rfl, by simp⟩
    · -- the link of the old top is the new top
      simp [hcell, Cell.next]
    · have hrt : r ≠ t := fun e => hr (e ▸ ht)
      have htail : nextIn (r :: rest) t = nextIn rest t := nextIn_cons_of_ne hrt rest
      simp only [Array.getElem?_setIfInBounds, if_neg hrt]
      rw [h.cell_eq t (List.mem_cons_of_mem r ht), htail]
      rfl

theorem FreeThreads.insertAtHead (h : a.FreeThreads l) {k : κ} {v : ν} {s : Slot}
    (hins : a.insertAtHead k v = .ok (s, a')) :
    a'.FreeThreads l.tail ∧ s = l.headD a.cells.size ∧
      a'.cells.size = a.cells.size + (if l = [] then 1 else 0) := by
  obtain ⟨-, b, hb, rfl⟩ := insertAtHead_eq_ok.mp hins
  obtain ⟨hfree, hslot, hcells⟩ := h.alloc hb
  refine ⟨?_, hslot, by simp [hcells]⟩
  exact ((hfree.restamp s _).linkHead s).of_cells rfl fun _ _ => rfl

theorem FreeThreads.moveToHead (h : a.FreeThreads l) {s : Slot}
    (hmove : a.moveToHead s = .ok a') : a'.FreeThreads l := by
  obtain ⟨n, -, rfl⟩ := moveToHead_eq_ok.mp hmove
  split
  · exact h.restamp s _
  · exact ((h.restamp s _).unlink s n).linkHead s

/-- A removal puts its slot, which was live and so not on the chain, on top of the chain. -/
theorem FreeThreads.remove (h : a.FreeThreads l) {s : Slot} {r : Removal κ ν}
    (hrem : a.remove s = .ok (r, a')) : a'.FreeThreads (s :: l) := by
  obtain ⟨n, hn, -, rfl⟩ := remove_eq_ok.mp hrem
  have hs : s ∉ l := fun hmem => by
    rw [h.node?_eq_none hmem] at hn
    cases hn
  have hu := h.unlink s n
  refine ⟨List.nodup_cons.mpr ⟨hs, h.nodup⟩, rfl, fun t ht => ?_⟩
  rcases List.mem_cons.mp ht with rfl | ht
  · -- the vacated cell links to the old top
    have hlt : t < a.cells.size := lt_size_of_isSome (by rw [hn]; rfl)
    simp [hlt, h.head_eq]
  · have hst : s ≠ t := fun e => hs (e ▸ ht)
    simp only [Array.getElem?_setIfInBounds, if_neg hst]
    rw [hu.cell_eq t ht, nextIn_cons_of_ne hst]

theorem FreeThreads.replace (h : a.FreeThreads l) {s : Slot} {v old : ν}
    (hrep : a.replace s v = .ok (old, a')) : a'.FreeThreads l := by
  obtain ⟨n, -, -, rfl⟩ := replace_eq_ok.mp hrep
  exact h.modifyNode s _

end FreeChain

theorem moveToHead_cells {a a' : Arena κ ν} {s : Slot} (h : a.moveToHead s = .ok a') :
    a'.free = a.free ∧ a'.cells.size = a.cells.size := by
  obtain ⟨n, -, rfl⟩ := moveToHead_eq_ok.mp h
  split <;> simp

theorem remove_cells {a a' : Arena κ ν} {s : Slot} {r : Removal κ ν}
    (h : a.remove s = .ok (r, a')) : a'.cells.size = a.cells.size := by
  obtain ⟨n, -, -, rfl⟩ := remove_eq_ok.mp h
  simp

end Arena

end RecencyMap
