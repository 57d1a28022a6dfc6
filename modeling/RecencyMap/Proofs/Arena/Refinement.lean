import RecencyMap.Proofs.Arena.Reachable
import RecencyMap.Proofs.Arena.Recency

/-!
# The arena refines the recency sequence

Read through `Arena.view` (the walk from the head as the entries, the free chain as the stack,
the allocated cells as the slots ever used), every operation on a shaped arena does what the
abstract sequence does, faults included. Since every step keeps the shape, a script run on a
new arena and on the empty sequence gives the same reports.
-/

namespace RecencyMap

variable {κ ν : Type}

/-- The entry a live cell holds. -/
def Recency.Entry.ofCell (e : Slot × Node κ ν) : Recency.Entry κ ν :=
  { slot := e.1, key := e.2.key, value := e.2.value, seq := e.2.seq }

namespace Arena

/-- What an arena stands for. -/
def view (a : Arena κ ν) : Recency κ ν :=
  { entries := a.toList.map Recency.Entry.ofCell, free := a.freeList, allocated := a.cells.size,
    generation := a.generation, capacity := a.capacity }

@[simp] theorem view_free (a : Arena κ ν) : a.view.free = a.freeList := rfl

@[simp] theorem view_allocated (a : Arena κ ν) : a.view.allocated = a.cells.size := rfl

@[simp] theorem view_generation (a : Arena κ ν) : a.view.generation = a.generation := rfl

@[simp] theorem view_capacity (a : Arena κ ν) : a.view.capacity = a.capacity := rfl

theorem view_order (a : Arena κ ν) : a.view.order = a.order := by
  simp only [view, Recency.order, Arena.order, List.map_map]
  rfl

theorem view_empty (c : Nat) : (Arena.empty c : Arena κ ν).view = Recency.empty c := rfl

/-! ## Entries read off a list of slots -/

/-- Reading the entries of `l` in `b` gives those of `a` changed by `g`, when cell by cell `b`
holds what `g` makes of `a`'s entry. -/
theorem entriesOf_map_ofCell {a b : Arena κ ν} {g : Recency.Entry κ ν → Recency.Entry κ ν}
    {l : List Slot}
    (hcell : ∀ t ∈ l, (b.node? t).map (fun n => Recency.Entry.ofCell (t, n)) =
      (a.node? t).map fun n => g (Recency.Entry.ofCell (t, n))) :
    (b.entriesOf l).map Recency.Entry.ofCell =
      ((a.entriesOf l).map Recency.Entry.ofCell).map g := by
  induction l with
  | nil => rfl
  | cons t l ih =>
    have hrest := ih fun u hu => hcell u (List.mem_cons_of_mem _ hu)
    have ht := hcell t List.mem_cons_self
    -- the cell at `t` is vacant in both or live in both
    cases ha : a.node? t with
    | none =>
      rw [ha, Option.map_none, Option.map_eq_none_iff] at ht
      simp only [entriesOf, List.filterMap_cons, ha, ht, Option.map_none] at hrest ⊢
      exact hrest
    | some n =>
      rw [ha, Option.map_some] at ht
      obtain ⟨m, hm, hmn⟩ := Option.map_eq_some_iff.mp ht
      simp only [entriesOf, List.filterMap_cons, ha, hm, Option.map_some, List.map_cons]
        at hrest ⊢
      rw [hmn, hrest]

/-- Entries read off cells with the same payloads are the same. -/
theorem entriesOf_congr {a b : Arena κ ν} {l : List Slot}
    (hpay : ∀ t ∈ l, (b.node? t).map Node.payload = (a.node? t).map Node.payload) :
    (b.entriesOf l).map Recency.Entry.ofCell = (a.entriesOf l).map Recency.Entry.ofCell := by
  have h : (b.entriesOf l).map Recency.Entry.ofCell =
      ((a.entriesOf l).map Recency.Entry.ofCell).map id := entriesOf_map_ofCell fun t ht => by
    have hp := hpay t ht
    cases ha : a.node? t <;> cases hb : b.node? t <;> simp_all [Node.payload, Recency.Entry.ofCell]
  rwa [List.map_id] at h

theorem entriesOf_filter (a : Arena κ ν) (p : Slot → Bool) (l : List Slot) :
    a.entriesOf (l.filter p) = (a.entriesOf l).filter fun e => p e.1 := by
  induction l with
  | nil => rfl
  | cons t l ih =>
    unfold entriesOf at ih ⊢
    cases ha : a.node? t <;> by_cases hp : p t <;> simp [hp, ha, ih]

/-- Looking a slot up among the entries of live slots finds its cell when it is one of
them. -/
theorem find?_entriesOf {a : Arena κ ν} {l : List Slot} (hlive : ∀ t ∈ l, (a.node? t).isSome)
    (s : Slot) :
    ((a.entriesOf l).map Recency.Entry.ofCell).find? (fun e => e.slot == s) =
      if s ∈ l then (a.node? s).map fun n => Recency.Entry.ofCell (s, n) else none := by
  induction l with
  | nil => rfl
  | cons t l ih =>
    obtain ⟨n, hn⟩ := Option.isSome_iff_exists.mp (hlive t List.mem_cons_self)
    have hrest := ih fun u hu => hlive u (List.mem_cons_of_mem _ hu)
    simp only [entriesOf, List.filterMap_cons, hn, Option.map_some, List.map_cons,
      List.find?_cons] at hrest ⊢
    by_cases hts : t = s
    · subst hts
      simp [hn, Recency.Entry.ofCell]
    · have hne : ((Recency.Entry.ofCell (t, n)).slot == s) = false := by
        simp [Recency.Entry.ofCell, hts]
      have hmem : s ∈ t :: l ↔ s ∈ l := by simp [Ne.symm hts]
      rw [hne, if_congr hmem rfl rfl]
      exact hrest

/-! ## The view of a shaped arena -/

section Shaped

variable {a : Arena κ ν} {order : List Slot}

theorem Shape.view_entries (h : a.Shape order) :
    a.view.entries = (a.entriesOf order).map Recency.Entry.ofCell := by
  show a.toList.map Recency.Entry.ofCell = _
  rw [h.toList_eq]

theorem Shape.view_slots (h : a.Shape order) : a.view.slots = order := by
  show (a.toList.map Recency.Entry.ofCell).map Recency.Entry.slot = order
  rw [List.map_map]
  exact h.toList_slots

theorem Shape.view_length (h : a.Shape order) : a.view.entries.length = a.size := by
  show (a.toList.map Recency.Entry.ofCell).length = a.size
  rw [List.length_map, h.toList_length]

theorem Shape.node?_eq_none_of_not_mem (h : a.Shape order) {s : Slot} (hs : s ∉ order) :
    a.node? s = none := by
  cases hn : a.node? s with
  | none => rfl
  | some n => exact absurd (h.live_mem s (by simp [hn])) hs

/-- The abstract lookup of a slot finds what its cell holds. -/
theorem Shape.view_find? (h : a.Shape order) (s : Slot) :
    a.view.find? s = (a.node? s).map fun n => Recency.Entry.ofCell (s, n) := by
  unfold Recency.find?
  rw [h.view_entries, find?_entriesOf h.live]
  by_cases hs : s ∈ order
  · rw [if_pos hs]
  · rw [if_neg hs, h.node?_eq_none_of_not_mem hs, Option.map_none]

/-- The abstract entry of a slot is its cell, and a dead slot faults in both. -/
theorem Shape.view_entry (h : a.Shape order) (use : SlotUse) (s : Slot) :
    a.view.entry use s = (fun n => Recency.Entry.ofCell (s, n)) <$> a.live? use s := by
  unfold Recency.entry live?
  rw [h.view_find?]
  cases a.node? s <;> rfl

theorem Shape.view_isFull (h : a.Shape order) : a.view.isFull = a.isFull := by
  unfold Recency.isFull isFull
  rw [h.view_length, view_capacity]

theorem Shape.view_live (h : a.Shape order) (s : Slot) : a.view.live s = a.live s := by
  unfold Recency.live live
  rw [h.view_find?, Option.isSome_map]

/-- The slots of the walk without `s` are read off the entries without `s`. -/
theorem Shape.view_without (h : a.Shape order) (s : Slot) :
    a.view.without s = (a.entriesOf (order.erase s)).map Recency.Entry.ofCell := by
  unfold Recency.without
  rw [h.view_entries, h.nodup.erase_eq_filter, entriesOf_filter, List.filter_map]
  rfl

/-! ## What each operation writes -/

/-- An insertion writes the new payload, stamped with the next generation, at its slot and
leaves every other payload as it was. -/
theorem Shape.insertAtHead_payload (h : a.Shape order) {k : κ} {v : ν} {s : Slot}
    {a' : Arena κ ν} (hins : a.insertAtHead k v = .ok (s, a')) (t : Slot) :
    (a'.node? t).map Node.payload =
      if s = t then some (k, v, a.generation + 1) else (a.node? t).map Node.payload := by
  obtain ⟨-, b, halloc, rfl⟩ := insertAtHead_eq_ok.mp hins
  have hin : ∀ t ∈ a.free, t < a.cells.size := fun t ht => by
    rw [h.free_threads.head_eq] at ht
    exact h.free_threads.lt_size (List.mem_of_mem_head? ht)
  -- counting the entry does not touch the cells
  change (((b.restamp s (a.generation + 1)).linkHead s).node? t).map Node.payload = _
  rw [linkHead_payload, restamp_node?, alloc_node? halloc hin]
  by_cases hst : s = t <;> simp [hst, Node.payload]

/-- A removal vacates its slot and leaves every other payload as it was. -/
theorem remove_payload {s : Slot} {r : Removal κ ν} {a' : Arena κ ν}
    (hrem : a.remove s = .ok (r, a')) (t : Slot) :
    (a'.node? t).map Node.payload = if s = t then none else (a.node? t).map Node.payload := by
  obtain ⟨n, -, -, ha'⟩ := remove_eq_ok.mp hrem
  have hnode : a'.node? t = if s = t then none else (a.unlink s n).node? t := by
    rw [ha']
    exact node?_vacate (a.unlink s n) s t a.free
  rw [hnode]
  by_cases hst : s = t
  · rw [if_pos hst, if_pos hst, Option.map_none]
  · rw [if_neg hst, if_neg hst, unlink_payload]

/-! ## Each operation simulates its abstract counterpart -/

/-- An insertion into the arena is an insertion into what it stands for: the same fault, or
the same slot and the view of the arena after it. -/
theorem Shape.view_insertAtHead (h : a.Shape order) (k : κ) (v : ν) :
    a.view.insert k v = (fun p => (p.1, p.2.view)) <$> a.insertAtHead k v := by
  unfold Recency.insert
  rw [h.view_isFull]
  cases hfull : a.isFull with
  | true => simp [Arena.insertAtHead, hfull, Functor.map, Except.map]
  | false =>
    rcases halloc : a.alloc k v with ⟨s, b⟩
    obtain ⟨a', hins⟩ : ∃ a', a.insertAtHead k v = .ok (s, a') :=
      ⟨_, insertAtHead_eq_ok.mpr ⟨hfull, b, halloc, rfl⟩⟩
    have h' := (h.insertAtHead hins).1
    have hnot : s ∉ order := (List.nodup_cons.mp h'.nodup).1
    have hpay := h.insertAtHead_payload hins
    obtain ⟨hfree, hslot, hcells⟩ := h.free_threads.insertAtHead hins
    obtain ⟨hcap, hgen⟩ := insertAtHead_frame hins
    -- the cell of the new slot holds the new entry
    obtain ⟨n, hn⟩ := Option.isSome_iff_exists.mp (h'.live s List.mem_cons_self)
    have hentry : Recency.Entry.ofCell (s, n) =
        { slot := s, key := k, value := v, seq := a.generation + 1 } := by
      have hs := hpay s
      rw [hn, if_pos rfl, Option.map_some, Option.some.injEq] at hs
      simp only [Node.payload, Prod.mk.injEq] at hs
      simp [Recency.Entry.ofCell, hs]
    -- every other cell holds what it held
    have hrest : (a'.entriesOf order).map Recency.Entry.ofCell =
        (a.entriesOf order).map Recency.Entry.ofCell := by
      refine entriesOf_congr fun t ht => ?_
      have hst : s ≠ t := fun e => hnot (e ▸ ht)
      rw [hpay t, if_neg hst]
    have hview : a'.view = { a.view with
        entries := { slot := s, key := k, value := v, seq := a.generation + 1 } :: a.view.entries
        free := a.view.free.tail
        allocated := if a.view.free = [] then a.view.allocated + 1 else a.view.allocated
        generation := a.view.generation + 1 } := by
      ext1
      · rw [h'.view_entries, h.view_entries]
        simp only [entriesOf, List.filterMap_cons, hn, Option.map_some, List.map_cons]
        rw [hentry, ← entriesOf, hrest]
        rfl
      · simp [hfree.freeList_eq]
      · simp only [view_allocated, view_free, hcells]
        split <;> simp_all
      · simp [hgen]
      · simp [hcap]
    rw [hins]
    show _ = Except.ok (s, a'.view)
    rw [hview, hslot]
    rfl

/-- A removal from the arena is a removal from what it stands for: the same fault, or the same
payload and neighbours and the view of the arena after it. -/
theorem Shape.view_remove (h : a.Shape order) (s : Slot) :
    a.view.remove s = (fun p => (p.1, p.2.view)) <$> a.remove s := by
  unfold Recency.remove
  rw [h.view_entry]
  cases hn : a.node? s with
  | none => simp [live?, hn, Arena.remove, bind, Except.bind, Functor.map, Except.map]
  | some n =>
    obtain ⟨r, a', hrem⟩ : ∃ r a', a.remove s = .ok (r, a') :=
      ⟨_, _, remove_eq_ok.mpr ⟨n, hn, rfl, rfl⟩⟩
    obtain ⟨h', -, hnext, hprev⟩ := h.remove hrem
    obtain ⟨n', hn', hr, -⟩ := remove_eq_ok.mp hrem
    rw [hn, Option.some.injEq] at hn'
    subst hn'
    have hfree := (h.free_threads.remove hrem).freeList_eq
    have hcells := remove_cells hrem
    obtain ⟨hcap, hgen⟩ := remove_frame hrem
    -- the cells left behind hold what they held
    have hrest : a'.view.entries = a.view.without s := by
      rw [h'.view_entries, h.view_without]
      refine entriesOf_congr fun t ht => ?_
      have hst : s ≠ t := fun e => (h.nodup.mem_erase_iff.mp (e ▸ ht)).1 rfl
      rw [remove_payload hrem t, if_neg hst]
    have hview : a'.view = { a.view with
        entries := a.view.without s, free := s :: a.view.free,
        generation := a.view.generation + 1 } := by
      ext1
      · exact hrest
      · simp [hfree]
      · simp [hcells]
      · simp [hgen]
      · simp [hcap]
    rw [hrem]
    show _ = Except.ok (r, a'.view)
    -- the neighbours handed back are those in the order
    subst hr
    rw [hview, h.view_slots, ← hnext, ← hprev]
    simp [live?, hn, bind, Except.bind, pure, Except.pure, Functor.map, Except.map,
      Recency.Entry.ofCell]

/-- Moving a slot to the front of the arena moves its entry to the front of what the arena
stands for, with a fresh stamp. -/
theorem Shape.view_moveToHead (h : a.Shape order) (s : Slot) :
    a.view.moveToHead s = Arena.view <$> a.moveToHead s := by
  unfold Recency.moveToHead
  rw [h.view_entry]
  cases hn : a.node? s with
  | none => simp [live?, hn, Arena.moveToHead, bind, Except.bind, Functor.map, Except.map]
  | some n =>
    obtain ⟨a', hmove⟩ : ∃ a', a.moveToHead s = .ok a' :=
      ⟨_, moveToHead_eq_ok.mpr ⟨n, hn, rfl⟩⟩
    obtain ⟨h', hpay⟩ := h.moveToHead hmove
    have hfree := (h.free_threads.moveToHead hmove).freeList_eq
    have hcells := (moveToHead_cells hmove).2
    obtain ⟨hcap, hgen⟩ := moveToHead_frame hmove
    -- the moved cell keeps its payload under the new stamp
    obtain ⟨n', hn'⟩ := Option.isSome_iff_exists.mp (h'.live s List.mem_cons_self)
    have hentry : Recency.Entry.ofCell (s, n') =
        { Recency.Entry.ofCell (s, n) with seq := a.generation + 1 } := by
      have hs := hpay s
      rw [hn', if_pos rfl, hn] at hs
      simp only [Option.map_some, Option.some.injEq, Node.payload, Prod.mk.injEq] at hs
      simp [Recency.Entry.ofCell, hs]
    have hrest : (a'.entriesOf (order.erase s)).map Recency.Entry.ofCell = a.view.without s := by
      rw [h.view_without]
      refine entriesOf_congr fun t ht => ?_
      have hst : s ≠ t := fun e => (h.nodup.mem_erase_iff.mp (e ▸ ht)).1 rfl
      rw [hpay t, if_neg hst]
    have hview : a'.view = { a.view with
        entries := { Recency.Entry.ofCell (s, n) with seq := a.view.generation + 1 } ::
          a.view.without s
        generation := a.view.generation + 1 } := by
      ext1
      · rw [h'.view_entries]
        simp only [entriesOf, List.filterMap_cons, hn', Option.map_some, List.map_cons]
        rw [hentry, ← entriesOf, hrest]
        rfl
      · simp [hfree]
      · simp [hcells]
      · simp [hgen]
      · simp [hcap]
    rw [hmove]
    show _ = Except.ok a'.view
    rw [hview]
    simp [live?, hn, bind, Except.bind, pure, Except.pure, Functor.map, Except.map]

/-- Replacing a value in the arena replaces it in what the arena stands for. -/
theorem Shape.view_replace (h : a.Shape order) (s : Slot) (v : ν) :
    a.view.replace s v = (fun p => (p.1, p.2.view)) <$> a.replace s v := by
  unfold Recency.replace
  rw [h.view_entry]
  cases hn : a.node? s with
  | none => simp [live?, hn, Arena.replace, bind, Except.bind, Functor.map, Except.map]
  | some n =>
    obtain ⟨a', hrep⟩ : ∃ a', a.replace s v = .ok (n.value, a') :=
      ⟨_, replace_eq_ok.mpr ⟨n, hn, rfl, rfl⟩⟩
    obtain ⟨m, hm, -, ha'⟩ := replace_eq_ok.mp hrep
    obtain ⟨hcap, hgen⟩ := replace_frame hrep
    -- cell by cell, the new arena holds the old entries with the value at `s` replaced
    have hcell : ∀ t ∈ order, (a'.node? t).map (fun n => Recency.Entry.ofCell (t, n)) =
        (a.node? t).map fun n => (fun x : Recency.Entry κ ν =>
          if x.slot = s then { x with value := v } else x) (Recency.Entry.ofCell (t, n)) := by
      intro t _
      rw [ha', node?_modifyNode]
      by_cases hst : s = t
      · subst hst
        simp [Recency.Entry.ofCell, Function.comp_def]
      · have hts : t ≠ s := Ne.symm hst
        simp [hst, hts, Recency.Entry.ofCell]
    have hview : a'.view = { a.view with
        entries := a.view.entries.map fun x =>
          if x.slot = s then { x with value := v } else x } := by
      ext1
      · rw [h.view_entries, (h.replace hrep).view_entries]
        exact entriesOf_map_ofCell hcell
      · exact (h.free_threads.replace hrep).freeList_eq
      · simp [ha']
      · simp [hgen]
      · simp [hcap]
    rw [hrep]
    show _ = Except.ok (n.value, a'.view)
    rw [hview]
    simp [live?, hn, bind, Except.bind, pure, Except.pure, Functor.map, Except.map,
      Recency.Entry.ofCell]

/-- Evicting from the arena evicts the last entry of what it stands for. -/
theorem Shape.view_evictTail (h : a.Shape order) :
    a.view.evictTail = (fun p => (p.1, p.2.view)) <$> a.evictTail := by
  -- the last entry sits at the tail
  have hlast : a.view.entries.getLast?.map Recency.Entry.slot = a.tail := by
    have hslots : a.view.entries.map Recency.Entry.slot = order := h.view_slots
    rw [← List.getLast?_map, hslots, h.tail_eq]
  unfold Recency.evictTail Arena.evictTail
  cases ht : a.tail with
  | none =>
    rw [ht, Option.map_eq_none_iff] at hlast
    rw [hlast]
    rfl
  | some t =>
    rw [ht] at hlast
    obtain ⟨e, he, rfl⟩ := Option.map_eq_some_iff.mp hlast
    simp only [he]
    rw [h.view_remove]
    cases a.remove e.slot <;> rfl

/-! ## Reads -/

theorem Shape.view_next? (h : a.Shape order) (s : Slot) : a.view.next? s = a.next? s := by
  unfold Recency.next? next?
  rw [h.view_entry, h.view_slots]
  cases hn : a.node? s with
  | none => simp [live?, hn, Functor.map, Except.map]
  | some n =>
    have hs : s ∈ order := h.live_mem s (by simp [hn])
    simp [live?, hn, Functor.map, Except.map, h.next_eq s hs n hn]

theorem Shape.view_prev? (h : a.Shape order) (s : Slot) : a.view.prev? s = a.prev? s := by
  unfold Recency.prev? prev?
  rw [h.view_entry, h.view_slots]
  cases hn : a.node? s with
  | none => simp [live?, hn, Functor.map, Except.map]
  | some n =>
    have hs : s ∈ order := h.live_mem s (by simp [hn])
    simp [live?, hn, Functor.map, Except.map, h.prev_eq s hs n hn]

theorem Shape.view_key? (h : a.Shape order) (s : Slot) : a.view.key? s = a.key? s := by
  unfold Recency.key? key?
  rw [h.view_entry]
  cases a.live? .key s <;> rfl

theorem Shape.view_value? (h : a.Shape order) (s : Slot) : a.view.value? s = a.value? s := by
  unfold Recency.value? value?
  rw [h.view_entry]
  cases a.live? .value s <;> rfl

theorem Shape.view_seq? (h : a.Shape order) (s : Slot) : a.view.seq? s = a.seq? s := by
  unfold Recency.seq? seq?
  rw [h.view_entry]
  cases a.live? .seq s <;> rfl

theorem Shape.view_age? (h : a.Shape order) (s : Slot) : a.view.age? s = a.age? s := by
  unfold Recency.age? age?
  rw [h.view_seq?, view_generation]

end Shaped

/-! ## Steps and scripts -/

section Steps

variable {a : Arena κ String} {order : List Slot}

/-- One step on a shaped arena replies as the same step on what the arena stands for, and
leaves the arena standing for the sequence the abstract step leaves. -/
theorem Shape.view_perform (h : a.Shape order) (st : ArenaStep κ) :
    a.view.perform st = ((a.perform st).1, (a.perform st).2.view) := by
  cases st with
  | insert k v =>
    simp only [Recency.perform, Arena.perform, h.view_insertAtHead]
    cases a.insertAtHead k v <;> rfl
  | moveToHead s =>
    simp only [Recency.perform, Arena.perform, h.view_moveToHead]
    cases a.moveToHead s <;> rfl
  | evictTail =>
    simp only [Recency.perform, Arena.perform, h.view_evictTail]
    cases a.evictTail <;> rfl
  | remove s =>
    simp only [Recency.perform, Arena.perform, h.view_remove]
    cases a.remove s <;> rfl
  | replace s v =>
    simp only [Recency.perform, Arena.perform, h.view_replace]
    cases a.replace s v <;> rfl
  | next s =>
    simp only [Recency.perform, Arena.perform, h.view_next?]
    cases a.next? s <;> rfl
  | prev s =>
    simp only [Recency.perform, Arena.perform, h.view_prev?]
    cases a.prev? s <;> rfl
  | key s =>
    simp only [Recency.perform, Arena.perform, h.view_key?]
    cases a.key? s <;> rfl
  | value s =>
    simp only [Recency.perform, Arena.perform, h.view_value?]
    cases a.value? s <;> rfl
  | seq s =>
    simp only [Recency.perform, Arena.perform, h.view_seq?]
    cases a.seq? s <;> rfl
  | age s =>
    simp only [Recency.perform, Arena.perform, h.view_age?]
    cases a.age? s <;> rfl
  | head => simp [Recency.perform, Arena.perform, h.view_slots, h.head_eq]
  | tail => simp [Recency.perform, Arena.perform, h.view_slots, h.tail_eq]
  | live s => simp [Recency.perform, Arena.perform, h.view_live]
  | len => simp [Recency.perform, Arena.perform, h.view_length]
  | cap => rfl
  | generation => rfl
  | full => simp [Recency.perform, Arena.perform, h.view_isFull]
  | validate => simp [Recency.perform, h.perform_validate]

/-- A script run on a shaped arena reports what it reports on what the arena stands for. -/
theorem Shape.view_run (h : a.Shape order) (steps : List (ArenaStep κ)) :
    a.view.run steps = a.run steps := by
  induction steps generalizing a order with
  | nil => rfl
  | cons st rest ih =>
    -- the step keeps the arena shaped, so the rest of the script is covered by induction
    obtain ⟨order', h', -⟩ := h.perform st
    have hrest := ih h'
    rcases hp : a.perform st with ⟨reply, a'⟩
    rw [hp] at hrest
    have hstep := h.view_perform st
    rw [hp] at hstep
    simp only [Recency.run, Arena.run, hstep, hp, view_order, view_generation, hrest]

end Steps

end Arena

/-! ## The generation counts the changes -/

/-- The steps that change the order when they complete, and so bump the generation. -/
def ArenaStep.restructures : ArenaStep κ → Bool
  | .insert .. | .moveToHead _ | .evictTail | .remove _ => true
  | _ => false

namespace Recency

theorem insert_generation {r r' : Recency κ ν} {k : κ} {v : ν} {s : Slot}
    (h : r.insert k v = .ok (s, r')) : r'.generation = r.generation + 1 := by
  unfold insert at h
  split at h
  · cases h
  · simp only [Except.ok.injEq, Prod.mk.injEq] at h
    obtain ⟨-, rfl⟩ := h
    rfl

theorem moveToHead_generation {r r' : Recency κ ν} {s : Slot} (h : r.moveToHead s = .ok r') :
    r'.generation = r.generation + 1 := by
  unfold moveToHead entry at h
  cases hf : r.find? s <;> simp [hf, bind, Except.bind, pure, Except.pure] at h
  subst h
  rfl

theorem remove_generation {r r' : Recency κ ν} {s : Slot} {x : Arena.Removal κ ν}
    (h : r.remove s = .ok (x, r')) : r'.generation = r.generation + 1 := by
  unfold remove entry at h
  cases hf : r.find? s <;> simp [hf, bind, Except.bind, pure, Except.pure] at h
  obtain ⟨-, rfl⟩ := h
  rfl

theorem evictTail_generation {r r' : Recency κ ν} {e : κ × ν} (h : r.evictTail = .ok (e, r')) :
    r'.generation = r.generation + 1 := by
  unfold evictTail at h
  cases hl : r.entries.getLast? with
  | none => simp [hl] at h
  | some last =>
    simp only [hl] at h
    cases hr : r.remove last.slot with
    | error f => simp [hr, bind, Except.bind] at h
    | ok p =>
      simp only [hr, bind, Except.bind, pure, Except.pure, Except.ok.injEq, Prod.mk.injEq] at h
      obtain ⟨-, rfl⟩ := h
      exact remove_generation hr

theorem replace_generation {r r' : Recency κ ν} {s : Slot} {v old : ν}
    (h : r.replace s v = .ok (old, r')) : r'.generation = r.generation := by
  unfold replace entry at h
  cases hf : r.find? s <;> simp [hf, bind, Except.bind, pure, Except.pure] at h
  obtain ⟨-, rfl⟩ := h
  rfl

theorem perform_read_snd {α : Type} (r : Recency κ String) (f : α → ArenaReply κ)
    (x : Except ArenaFault α) : (perform.read r f x).2 = r := by
  cases x <;> rfl

/-- A step bumps the generation by one exactly when it changes the order and completes. -/
theorem perform_generation (r : Recency κ String) (st : ArenaStep κ) :
    (r.perform st).2.generation =
      r.generation + if st.restructures && !(r.perform st).1.isPanic then 1 else 0 := by
  cases st with
  | insert k v =>
    cases hr : r.insert k v with
    | error e => simp [perform, hr, perform.changed, ArenaReply.isPanic]
    | ok p =>
      simp [perform, hr, perform.changed, ArenaReply.isPanic, ArenaStep.restructures,
        insert_generation hr]
  | moveToHead s =>
    cases hr : r.moveToHead s with
    | error e => simp [perform, hr, perform.changed, ArenaReply.isPanic]
    | ok r' =>
      simp [perform, hr, perform.changed, ArenaReply.isPanic, ArenaStep.restructures,
        moveToHead_generation hr]
  | evictTail =>
    cases hr : r.evictTail with
    | error e => simp [perform, hr, perform.changed, ArenaReply.isPanic]
    | ok p =>
      simp [perform, hr, perform.changed, ArenaReply.isPanic, ArenaStep.restructures,
        evictTail_generation hr]
  | remove s =>
    cases hr : r.remove s with
    | error e => simp [perform, hr, perform.changed, ArenaReply.isPanic]
    | ok p =>
      simp [perform, hr, perform.changed, ArenaReply.isPanic, ArenaStep.restructures,
        remove_generation hr]
  | replace s v =>
    cases hr : r.replace s v with
    | error e =>
      simp [perform, hr, perform.changed, ArenaStep.restructures, ArenaReply.isPanic]
    | ok p => simp [perform, hr, perform.changed, ArenaStep.restructures, replace_generation hr]
  | next s | prev s | key s | value s | seq s | age s =>
    simp [perform, perform_read_snd, ArenaStep.restructures]
  | head | tail | live s | len | cap | generation | full | validate =>
    simp [perform, ArenaStep.restructures]

/-- After a script, the generation has grown by the number of steps that changed the order
and completed. -/
theorem run_generation (r : Recency κ String) (steps : List (ArenaStep κ)) :
    ((r.run steps).getLast?.map ArenaReport.generation).getD r.generation =
      r.generation + (steps.zip (r.run steps)).countP
        fun p => p.1.restructures && !p.2.reply.isPanic := by
  induction steps generalizing r with
  | nil => simp [run]
  | cons st rest ih =>
    rcases hp : r.perform st with ⟨reply, r'⟩
    have hgen := r.perform_generation st
    rw [hp] at hgen
    have hrest := ih r'
    simp only [run, hp, List.zip_cons_cons, List.countP_cons, List.getLast?_cons,
      Option.map_some, Option.getD_some]
    rw [← Option.getD_map ArenaReport.generation, hrest]
    simp only at hgen ⊢
    rw [hgen]
    split <;> omega

end Recency

/-- Every script run on a new arena reports what it reports on the empty recency sequence with
the same room: the same replies, faults included, and after each step the same order and the
same generation. The generation after the script is the number of its steps that changed the
order and completed. -/
theorem Arena.run_refines_recency (c : Nat) (steps : List (ArenaStep κ)) :
    (Arena.empty c : Arena κ String).run steps = (Recency.empty c).run steps ∧
      (((Arena.empty c : Arena κ String).run steps).getLast?.map ArenaReport.generation).getD 0 =
        (steps.zip ((Arena.empty c : Arena κ String).run steps)).countP
          fun p => p.1.restructures && !p.2.reply.isPanic := by
  have hrun : (Arena.empty c : Arena κ String).run steps = (Recency.empty c).run steps := by
    rw [← Arena.view_empty]
    exact ((Arena.Shape.empty c).view_run steps).symm
  refine ⟨hrun, ?_⟩
  have hgen := (Recency.empty c : Recency κ String).run_generation steps
  rw [hrun]
  simpa [Recency.empty] using hgen

end RecencyMap
