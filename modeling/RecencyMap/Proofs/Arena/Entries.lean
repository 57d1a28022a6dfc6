import RecencyMap.Proofs.Arena.Refinement

/-!
# Operations on live entries

What each arena operation returns when it is given a live entry (or, for insertion and
eviction, room or an entry to evict), read through `Arena.view`: the answer, the abstract
sequence after it, and the shape it leaves. Callers above the arena use these and never the
cell-level lemmas beneath them.
-/

namespace RecencyMap

namespace Recency

variable {κ ν : Type} {r : Recency κ ν}

/-- In a sequence with distinct slots, the lookup of an entry's slot finds that entry. -/
theorem find?_of_mem (hnd : r.slots.Nodup) {e : Entry κ ν} (he : e ∈ r.entries) :
    r.find? e.slot = some e := by
  unfold find?
  have hsome : (r.entries.find? fun x => x.slot == e.slot).isSome :=
    List.find?_isSome.mpr ⟨e, he, by simp⟩
  obtain ⟨x, hx⟩ := Option.isSome_iff_exists.mp hsome
  have hxs : x.slot = e.slot := by simpa using List.find?_some hx
  rw [hx, List.inj_on_of_nodup_map hnd (List.mem_of_find?_eq_some hx) he hxs]

theorem find?_of_not_mem {s : Slot} (hs : s ∉ r.slots) : r.find? s = none := by
  unfold find?
  rw [List.find?_eq_none]
  intro x hx hxs
  exact hs (List.mem_map.mpr ⟨x, hx, by simpa using hxs⟩)

theorem entry_of_mem (hnd : r.slots.Nodup) {e : Entry κ ν} (he : e ∈ r.entries)
    (use : SlotUse) : r.entry use e.slot = .ok e := by
  simp [entry, find?_of_mem hnd he]

theorem entry_of_not_mem {s : Slot} (hs : s ∉ r.slots) (use : SlotUse) :
    r.entry use s = .error (.deadSlot use s) := by
  simp [entry, find?_of_not_mem hs]

end Recency

namespace Arena

variable {κ ν : Type} {a : Arena κ ν} {order : List Slot}

theorem Shape.view_nodup (h : a.Shape order) : a.view.slots.Nodup := by
  rw [h.view_slots]
  exact h.nodup

/-- An abstract answer that is `ok` is the view of the arena's answer. -/
theorem ok_of_view {α β : Type} {x : Except ArenaFault α} {f : α → β} {y : β}
    (h : f <$> x = .ok y) : ∃ z, x = .ok z ∧ f z = y := by
  cases x with
  | error e => cases h
  | ok z => exact ⟨z, rfl, Except.ok.inj h⟩

/-- Removing a live entry hands back its payload and its neighbours, and drops it. -/
theorem Shape.remove_live (h : a.Shape order) {e : Recency.Entry κ ν}
    (he : e ∈ a.view.entries) :
    ∃ a', a.remove e.slot =
        .ok ({ key := e.key, value := e.value, next := nextIn order e.slot,
               prev := prevIn order e.slot }, a') ∧
      a'.view = { a.view with entries := a.view.without e.slot, free := e.slot :: a.view.free,
                              generation := a.view.generation + 1 } ∧
      a'.Shape (order.erase e.slot) := by
  have hrec := h.view_remove e.slot
  simp only [Recency.remove, Recency.entry_of_mem h.view_nodup he, h.view_slots, bind,
    Except.bind, pure, Except.pure] at hrec
  obtain ⟨⟨x, a'⟩, hr, hx⟩ := ok_of_view hrec.symm
  simp only [Prod.mk.injEq] at hx
  obtain ⟨rfl, hview⟩ := hx
  exact ⟨a', hr, hview, (h.remove hr).1⟩

/-- Moving a live entry to the front restamps it with the next generation. -/
theorem Shape.moveToHead_live (h : a.Shape order) {e : Recency.Entry κ ν}
    (he : e ∈ a.view.entries) :
    ∃ a', a.moveToHead e.slot = .ok a' ∧
      a'.view = { a.view with
        entries := { e with seq := a.view.generation + 1 } :: a.view.without e.slot
        generation := a.view.generation + 1 } ∧
      a'.Shape (e.slot :: order.erase e.slot) := by
  have hrec := h.view_moveToHead e.slot
  simp only [Recency.moveToHead, Recency.entry_of_mem h.view_nodup he, bind, Except.bind,
    pure, Except.pure] at hrec
  obtain ⟨a', hr, hview⟩ := ok_of_view hrec.symm
  exact ⟨a', hr, hview, (h.moveToHead hr).1⟩

/-- Replacing the value of a live entry hands back the old value and changes nothing else. -/
theorem Shape.replace_live (h : a.Shape order) {e : Recency.Entry κ ν}
    (he : e ∈ a.view.entries) (v : ν) :
    ∃ a', a.replace e.slot v = .ok (e.value, a') ∧
      a'.view = { a.view with
        entries := a.view.entries.map fun x =>
          if x.slot = e.slot then { x with value := v } else x } ∧
      a'.Shape order := by
  have hrec := h.view_replace e.slot v
  simp only [Recency.replace, Recency.entry_of_mem h.view_nodup he, bind, Except.bind, pure,
    Except.pure] at hrec
  obtain ⟨⟨old, a'⟩, hr, hx⟩ := ok_of_view hrec.symm
  simp only [Prod.mk.injEq] at hx
  obtain ⟨rfl, hview⟩ := hx
  exact ⟨a', hr, hview, h.replace hr⟩

/-- Inserting into an arena with room takes the top of the free chain, or the next new cell,
for a new entry in front stamped with the next generation. -/
theorem Shape.insertAtHead_room (h : a.Shape order) (hroom : a.isFull = false) (k : κ)
    (v : ν) :
    ∃ a', a.insertAtHead k v = .ok (a.freeList.headD a.cells.size, a') ∧
      a'.view = { a.view with
        entries := { slot := a.freeList.headD a.cells.size, key := k, value := v,
                     seq := a.view.generation + 1 } :: a.view.entries
        free := a.view.free.tail
        allocated := if a.view.free = [] then a.view.allocated + 1 else a.view.allocated
        generation := a.view.generation + 1 } ∧
      a'.Shape (a.freeList.headD a.cells.size :: order) := by
  have hrec := h.view_insertAtHead k v
  have hfull : a.view.isFull = false := by rw [h.view_isFull, hroom]
  simp only [Recency.insert, hfull, Bool.false_eq_true, if_false, view_free, view_allocated]
    at hrec
  obtain ⟨⟨s, a'⟩, hr, hx⟩ := ok_of_view hrec.symm
  simp only [Prod.mk.injEq] at hx
  obtain ⟨rfl, hview⟩ := hx
  exact ⟨a', hr, hview, (h.insertAtHead hr).1⟩

/-- Evicting from a nonempty arena removes its last entry. -/
theorem Shape.evictTail_last (h : a.Shape order) {e : Recency.Entry κ ν}
    (hlast : a.view.entries.getLast? = some e) :
    ∃ a', a.evictTail = .ok ((e.key, e.value), a') ∧
      a'.view = { a.view with entries := a.view.without e.slot, free := e.slot :: a.view.free,
                              generation := a.view.generation + 1 } ∧
      a'.Shape (order.erase e.slot) := by
  have he : e ∈ a.view.entries := List.mem_of_getLast? hlast
  obtain ⟨a', hrem, hview, h'⟩ := h.remove_live he
  -- the last entry sits at the tail
  have htail : a.tail = some e.slot := by
    have hslots : a.view.entries.map Recency.Entry.slot = order := h.view_slots
    rw [h.tail_eq, ← hslots, List.getLast?_map, hlast, Option.map_some]
  refine ⟨a', ?_, hview, h'⟩
  simp [Arena.evictTail, htail, hrem, bind, Except.bind, pure, Except.pure]

/-! ## Reads -/

theorem Shape.key?_live (h : a.Shape order) {e : Recency.Entry κ ν} (he : e ∈ a.view.entries) :
    a.key? e.slot = .ok e.key := by
  rw [← h.view_key?]
  simp [Recency.key?, Recency.entry_of_mem h.view_nodup he, Functor.map, Except.map]

theorem Shape.value?_live (h : a.Shape order) {e : Recency.Entry κ ν}
    (he : e ∈ a.view.entries) : a.value? e.slot = .ok e.value := by
  rw [← h.view_value?]
  simp [Recency.value?, Recency.entry_of_mem h.view_nodup he, Functor.map, Except.map]

theorem Shape.seq?_live (h : a.Shape order) {e : Recency.Entry κ ν} (he : e ∈ a.view.entries) :
    a.seq? e.slot = .ok e.seq := by
  rw [← h.view_seq?]
  simp [Recency.seq?, Recency.entry_of_mem h.view_nodup he, Functor.map, Except.map]

/-- A slot that holds no entry faults every read with its own use. -/
theorem Shape.live?_dead (h : a.Shape order) {s : Slot} (hs : s ∉ a.view.slots)
    (use : SlotUse) : a.live? use s = .error (.deadSlot use s) := by
  rw [h.view_slots] at hs
  simp [live?, h.node?_eq_none_of_not_mem hs]

end Arena

end RecencyMap
