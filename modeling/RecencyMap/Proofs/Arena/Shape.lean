import RecencyMap.Proofs.Arena.Steps

/-!
# The shape of an arena

`Shape a order` is the representation invariant of an arena whose live cells, from the most
to the least recent, are `order`:

* the head, the tail and the links thread exactly `order` (`Threads`);
* the size counts it, and every live cell is in it;
* the stamps fall strictly along it and none is ahead of the generation;
* the free chain threads distinct vacant cells, and with `order` they fill the allocated
  cells, of which there are at most `capacity`.

Every operation keeps the shape, with a new order this file names: an insertion puts its
slot in front, a move to the front moves the slot there, a removal or an eviction erases it,
and a replacement keeps the order.
-/

namespace RecencyMap
namespace Arena

variable {κ ν : Type}

/-! ## The invariant -/

/-- The stamp of the cell at `s`, or `0` when it is vacant. -/
def stampAt (a : Arena κ ν) (s : Slot) : Nat := ((a.node? s).map Node.seq).getD 0

theorem stampAt_eq_of_payload {a b : Arena κ ν} {t : Slot}
    (h : (b.node? t).map Node.payload = (a.node? t).map Node.payload) :
    b.stampAt t = a.stampAt t := by
  have hseq := congrArg (Option.map fun p : κ × ν × Nat => p.2.2) h
  simp only [Option.map_map] at hseq
  exact congrArg (Option.getD · 0) hseq

/-- A free chain that threads some list threads the one it is read as. -/
theorem FreeThreads.self {a : Arena κ ν} {l : List Slot} (h : a.FreeThreads l) :
    a.FreeThreads a.freeList := by
  rw [h.freeList_eq]
  exact h

/-- The representation invariant of an arena whose live cells, most recent first, are
`order`. -/
structure Shape (a : Arena κ ν) (order : List Slot) : Prop extends a.Threads order where
  live_mem : ∀ s, (a.node? s).isSome → s ∈ order
  size_eq : a.size = order.length
  stamps : order.Pairwise fun s t => a.stampAt t < a.stampAt s
  stamp_le : ∀ s n, a.node? s = some n → n.seq ≤ a.generation
  free_threads : a.FreeThreads a.freeList
  count : a.freeList.length + order.length = a.cells.size
  cells_le : a.cells.size ≤ a.capacity

/-- A fresh arena has the shape of the empty order. -/
theorem Shape.empty (c : Nat) : (Arena.empty c : Arena κ ν).Shape [] where
  nodup := List.nodup_nil
  live := by simp
  next_eq := by simp
  prev_eq := by simp
  head_eq := rfl
  tail_eq := rfl
  live_mem s h := by simp [Arena.empty, node?] at h
  size_eq := rfl
  stamps := List.Pairwise.nil
  stamp_le s n h := by simp [Arena.empty, node?] at h
  free_threads := ⟨List.nodup_nil, rfl, by simp [freeList, freeFrom, Arena.empty]⟩
  count := rfl
  cells_le := by simp [Arena.empty]

theorem Shape.mem_iff {a : Arena κ ν} {order : List Slot} (h : a.Shape order) (s : Slot) :
    s ∈ order ↔ (a.node? s).isSome :=
  ⟨h.live s, h.live_mem s⟩

/-- No stamp is ahead of the generation. -/
theorem Shape.stampAt_le {a : Arena κ ν} {order : List Slot} (h : a.Shape order) (s : Slot) :
    a.stampAt s ≤ a.generation := by
  unfold stampAt
  cases hs : a.node? s with
  | none => exact Nat.zero_le _
  | some n => exact h.stamp_le s n hs

/-! ## Every operation keeps the shape -/

/-- A stamp above the generation in front of stamps that did not change keeps the stamps
falling. -/
theorem Shape.stamps_front {a a' : Arena κ ν} {order : List Slot} (h : a.Shape order)
    {s : Slot} (hs : a'.stampAt s = a.generation + 1)
    (hother : ∀ t, s ≠ t → a'.stampAt t = a.stampAt t) :
    (s :: order.erase s).Pairwise fun x y => a'.stampAt y < a'.stampAt x := by
  have hne : ∀ {t}, t ∈ order.erase s → s ≠ t := fun ht e =>
    ((h.nodup.mem_erase_iff).mp (e ▸ ht)).1 rfl
  refine List.pairwise_cons.mpr ⟨fun t ht => ?_, ?_⟩
  · rw [hother t (hne ht), hs]
    exact Nat.lt_succ_of_le (h.stampAt_le t)
  · refine (h.stamps.sublist List.erase_sublist).imp_of_mem fun {x y} hx hy hxy => ?_
    rw [hother x (hne hx), hother y (hne hy)]
    exact hxy

/-- The shape after an operation that puts `s` in front with the next generation as its
stamp and changes no other entry. What the operation does to the free chain and the allocated
cells is left to the caller. -/
theorem Shape.front {a a' : Arena κ ν} {order : List Slot} (h : a.Shape order) {s : Slot}
    (hthreads : a'.Threads (s :: order.erase s))
    (hgen : a'.generation = a.generation + 1)
    (hseq : ∀ n, a'.node? s = some n → n.seq = a.generation + 1)
    (hother : ∀ t, s ≠ t → (a'.node? t).map Node.payload = (a.node? t).map Node.payload)
    (hsize : a'.size = (order.erase s).length + 1)
    {l : List Slot} (hfree : a'.FreeThreads l)
    (hcount : l.length + ((order.erase s).length + 1) = a'.cells.size)
    (hcells : a'.cells.size ≤ a'.capacity) :
    a'.Shape (s :: order.erase s) where
  toThreads := hthreads
  live_mem t ht := by
    by_cases hst : s = t
    · exact hst ▸ List.mem_cons_self
    · have hlive : (a.node? t).isSome := by
        rw [← Option.isSome_map (f := Node.payload), ← hother t hst, Option.isSome_map]
        exact ht
      exact List.mem_cons_of_mem _
        ((h.nodup.mem_erase_iff).mpr ⟨Ne.symm hst, h.live_mem t hlive⟩)
  size_eq := hsize
  stamps := by
    refine h.stamps_front ?_ fun t hst => stampAt_eq_of_payload (hother t hst)
    obtain ⟨n, hn⟩ := Option.isSome_iff_exists.mp (hthreads.live s List.mem_cons_self)
    simp [stampAt, hn, hseq n hn]
  stamp_le t n hn := by
    rw [hgen]
    by_cases hst : s = t
    · subst hst
      exact Nat.le_of_eq (hseq n hn)
    · have hp := hother t hst
      rw [hn, Option.map_some] at hp
      obtain ⟨m, hm, hmn⟩ := Option.map_eq_some_iff.mp hp.symm
      have hseq' : m.seq = n.seq := congrArg (fun p : κ × ν × Nat => p.2.2) hmn
      exact Nat.le_succ_of_le (hseq' ▸ h.stamp_le t m hm)
  free_threads := hfree.self
  count := by
    rw [hfree.freeList_eq]
    exact hcount
  cells_le := hcells

/-- Inserting keeps the shape, with the new slot in front; the slot lies below the capacity. -/
theorem Shape.insertAtHead {a : Arena κ ν} {order : List Slot} (h : a.Shape order) {k : κ}
    {v : ν} {s : Slot} {a' : Arena κ ν} (hins : a.insertAtHead k v = .ok (s, a')) :
    a'.Shape (s :: order) ∧ s < a.capacity := by
  obtain ⟨hfree, hslot, hcells⟩ := h.free_threads.insertAtHead hins
  obtain ⟨hfull, b, halloc, rfl⟩ := insertAtHead_eq_ok.mp hins
  obtain ⟨hhead, htail, hsize, hcap, hgen⟩ := alloc_frame halloc
  have hin : ∀ t ∈ a.free, t < a.cells.size := fun t ht => by
    rw [h.free_threads.head_eq] at ht
    exact h.free_threads.lt_size (List.mem_of_mem_head? ht)
  -- the slot taken is the top of the free chain, or a new cell past the end
  have hvacant : a.node? s = none := by
    rw [hslot]
    cases hf : a.freeList with
    | nil =>
      unfold node?
      rw [List.headD_nil, Array.getElem?_eq_none (Nat.le_refl _)]
      rfl
    | cons r rest => exact h.free_threads.node?_eq_none (by simp [hf])
  have hnot : s ∉ order := fun hmem => by
    have := h.live s hmem
    rw [hvacant] at this
    exact Bool.false_ne_true this
  -- every cell but `s` is as it was; `s` holds the new entry with the new stamp
  have hcell : ∀ t, (b.restamp s (a.generation + 1)).node? t = if s = t then
      some { key := k, value := v, prev := none, next := none, seq := a.generation + 1 }
      else a.node? t := by
    intro t
    rw [restamp_node?, alloc_node? halloc hin]
    by_cases hst : s = t <;> simp [hst]
  have hthreads : (b.restamp s (a.generation + 1)).Threads order := by
    refine h.toThreads.of_links (fun t ht => ?_) (by simp [hhead]) (by simp [htail])
    have hst : s ≠ t := fun e => hnot (e ▸ ht)
    rw [hcell t, if_neg hst]
  have hnotfull : a.size ≠ a.capacity := by simpa [isFull] using hfull
  have hsize_eq := h.size_eq
  have hcount := h.count
  have hle := h.cells_le
  -- the slot taken lies within the capacity, whether reused or new
  have hroom : s < a.cells.size + (if a.freeList = [] then 1 else 0) ∧
      a.cells.size + (if a.freeList = [] then 1 else 0) ≤ a.capacity := by
    rw [hslot]
    cases hf : a.freeList with
    | nil =>
      simp only [hf, List.length_nil, List.headD_nil, if_true, Nat.zero_add] at hcount ⊢
      exact ⟨Nat.lt_succ_self _, by omega⟩
    | cons r rest =>
      have hr := h.free_threads.lt_size (show r ∈ a.freeList by simp [hf])
      simp only [List.headD_cons, reduceCtorEq, if_false, Nat.add_zero]
      exact ⟨hr, hle⟩
  set d := (b.restamp s (a.generation + 1)).linkHead s with hd
  have hshape : ({ d with size := a.size + 1 } : Arena κ ν).Shape (s :: order.erase s) := by
    refine h.front ?_ ?_ ?_ ?_ ?_ hfree ?_ ?_
    · rw [List.erase_of_not_mem hnot]
      refine (hthreads.linkHead hnot ?_).of_links (fun _ _ => rfl) rfl rfl
      rw [hcell s, if_pos rfl]
      rfl
    · simp [hd]
    · intro n hn
      have hp := linkHead_payload (b.restamp s (a.generation + 1)) s s
      rw [hcell s, if_pos rfl] at hp
      change (d.node? s).map Node.payload = _ at hp
      rw [show d.node? s = some n from hn, Option.map_some, Option.map_some] at hp
      exact congrArg (fun p : κ × ν × Nat => p.2.2) (Option.some.inj hp)
    · intro t hst
      change (d.node? t).map Node.payload = _
      rw [hd, linkHead_payload, hcell t, if_neg hst]
    · show a.size + 1 = _
      rw [List.erase_of_not_mem hnot, h.size_eq]
    · rw [hcells, List.erase_of_not_mem hnot]
      cases hf : a.freeList with
      | nil =>
        simp only [hf, List.length_nil, Nat.zero_add, List.tail_nil, if_true] at hcount ⊢
        omega
      | cons r rest =>
        simp only [hf, List.length_cons, List.tail_cons, reduceCtorEq, if_false] at hcount ⊢
        omega
    · change d.cells.size ≤ d.capacity
      rw [hd, linkHead_capacity, restamp_capacity, hcap]
      exact hcells ▸ hroom.2
  rw [List.erase_of_not_mem hnot] at hshape
  exact ⟨hshape, Nat.lt_of_lt_of_le hroom.1 hroom.2⟩

/-- Moving to the front keeps the shape, with the slot moved in front. -/
theorem Shape.moveToHead {a : Arena κ ν} {order : List Slot} (h : a.Shape order) {s : Slot}
    {a' : Arena κ ν} (hmove : a.moveToHead s = .ok a') :
    a'.Shape (s :: order.erase s) ∧
      ∀ t, (a'.node? t).map Node.payload = (if s = t then
        (a.node? t).map fun n => { n with seq := a.generation + 1 } else a.node? t).map
          Node.payload := by
  have hft := h.free_threads.moveToHead hmove
  obtain ⟨n, hn, rfl⟩ := moveToHead_eq_ok.mp hmove
  have hs : s ∈ order := h.live_mem s (by rw [hn]; rfl)
  have hb : (a.restamp s (a.generation + 1)).Threads order :=
    h.toThreads.of_links (fun t _ => restamp_links a s _ t) rfl rfl
  -- whether or not `s` was already the head, the cells hold what the stamped arena holds
  have hpay : ∀ t, ((if a.head = some s then a.restamp s (a.generation + 1)
      else ((a.restamp s (a.generation + 1)).unlink s n).linkHead s).node? t).map
        Node.payload = ((a.restamp s (a.generation + 1)).node? t).map Node.payload := by
    intro t
    split
    · rfl
    · rw [linkHead_payload, unlink_payload]
  have hthreads : (if a.head = some s then a.restamp s (a.generation + 1)
      else ((a.restamp s (a.generation + 1)).unlink s n).linkHead s).Threads
        (s :: order.erase s) := by
    split
    · rename_i hh
      obtain ⟨rest, rfl⟩ : ∃ rest, order = s :: rest := by
        rw [h.head_eq] at hh
        cases order with
        | nil => simp at hh
        | cons w rest => exact ⟨rest, by simpa using hh⟩
      rw [List.erase_cons_head]
      exact hb
    · refine (hb.unlink hs (h.prev_eq s hs n hn) (h.next_eq s hs n hn)).linkHead
        (h.nodup.not_mem_erase) ?_
      rw [isSome_node?_of_payload (unlink_payload _ s n), restamp_node?, if_pos rfl, hn]
      rfl
  have hcell : ∀ t, ((a.restamp s (a.generation + 1)).node? t).map Node.payload =
      (if s = t then (a.node? t).map fun n => { n with seq := a.generation + 1 }
        else a.node? t).map Node.payload := by
    intro t
    rw [restamp_node?]
  have hframe : ∀ b : Arena κ ν, b = (if a.head = some s then a.restamp s (a.generation + 1)
      else ((a.restamp s (a.generation + 1)).unlink s n).linkHead s) →
      b.cells.size = a.cells.size ∧ b.capacity = a.capacity ∧
        b.size = a.size ∧ b.generation = a.generation + 1 := by
    rintro b rfl
    split <;> simp
  obtain ⟨hcells, hcap, hsize, hgen⟩ := hframe _ rfl
  have hlen : (order.erase s).length + 1 = order.length := by
    rw [List.length_erase_of_mem hs]
    exact Nat.sub_add_cancel (List.length_pos_of_mem hs)
  refine ⟨h.front hthreads hgen ?_ ?_ ?_ hft ?_ ?_, fun t => (hpay t).trans (hcell t)⟩
  · intro m hm
    have hp := (hpay s).trans (hcell s)
    rw [hm, if_pos rfl, hn] at hp
    exact congrArg (fun p : κ × ν × Nat => p.2.2) (Option.some.inj hp)
  · intro t hst
    rw [(hpay t).trans (hcell t), if_neg hst]
  · rw [hsize, hlen, h.size_eq]
  · rw [hcells, hlen]
    exact h.count
  · rw [hcells, hcap]
    exact h.cells_le

/-- Removing keeps the shape, with the slot erased from the order; it hands back the
neighbours the slot had in the order. -/
theorem Shape.remove {a : Arena κ ν} {order : List Slot} (h : a.Shape order) {s : Slot}
    {r : Removal κ ν} {a' : Arena κ ν} (hrem : a.remove s = .ok (r, a')) :
    a'.Shape (order.erase s) ∧ s ∈ order ∧ r.next = nextIn order s ∧
      r.prev = prevIn order s := by
  have hft := h.free_threads.remove hrem
  have hcells := remove_cells hrem
  obtain ⟨n, hn, rfl, ha'⟩ := remove_eq_ok.mp hrem
  have hnode : ∀ t, a'.node? t = if s = t then none else (a.unlink s n).node? t := by
    intro t
    rw [ha']
    exact node?_vacate (a.unlink s n) s t a.free
  have hlive : (a.node? s).isSome := by rw [hn]; rfl
  have hs : s ∈ order := h.live_mem s hlive
  -- every cell but `s` holds what it held; `s` is vacant
  have hpay : ∀ t, (a'.node? t).map Node.payload =
      if s = t then none else (a.node? t).map Node.payload := by
    intro t
    rw [hnode]
    split
    · rfl
    · exact unlink_payload a s n t
  have hne : ∀ {t}, t ∈ order.erase s → s ≠ t := fun ht e =>
    ((h.nodup.mem_erase_iff).mp (e ▸ ht)).1 rfl
  refine ⟨{ toThreads := ?_, live_mem := ?_, size_eq := ?_, stamps := ?_, stamp_le := ?_,
            free_threads := hft.self, count := ?_, cells_le := ?_ },
          hs, h.next_eq s hs n hn, h.prev_eq s hs n hn⟩
  · refine (h.toThreads.unlink hs (h.prev_eq s hs n hn) (h.next_eq s hs n hn)).of_links
      (fun t ht => ?_) (by rw [ha']) (by rw [ha'])
    rw [hnode, if_neg (hne ht)]
  · intro t ht
    rw [← Option.isSome_map (f := Node.payload), hpay t] at ht
    split at ht
    · exact absurd ht Bool.false_ne_true
    · rename_i hst
      rw [Option.isSome_map] at ht
      exact (h.nodup.mem_erase_iff).mpr ⟨Ne.symm hst, h.live_mem t ht⟩
  · rw [ha']
    change a.size - 1 = _
    rw [h.size_eq, List.length_erase_of_mem hs]
  · refine (h.stamps.sublist List.erase_sublist).imp_of_mem fun {x y} hx hy hxy => ?_
    rw [stampAt_eq_of_payload ((hpay x).trans (if_neg (hne hx))),
      stampAt_eq_of_payload ((hpay y).trans (if_neg (hne hy)))]
    exact hxy
  · intro t m hm
    have hgen : a'.generation = a.generation + 1 := by rw [ha']
    have hp := hpay t
    rw [hm, Option.map_some] at hp
    split at hp
    · exact absurd hp (Option.some_ne_none _)
    · obtain ⟨o, ho, hom⟩ := Option.map_eq_some_iff.mp hp.symm
      have hseq : o.seq = m.seq := congrArg (fun p : κ × ν × Nat => p.2.2) hom
      rw [hgen]
      exact Nat.le_succ_of_le (hseq ▸ h.stamp_le t o ho)
  · rw [hft.freeList_eq, hcells, List.length_cons, List.length_erase_of_mem hs, ← h.count]
    have := List.length_pos_of_mem hs
    omega
  · have hcap : a'.capacity = a.capacity := by rw [ha']; simp
    rw [hcells, hcap]
    exact h.cells_le

/-- Evicting keeps the shape, with the least recent slot erased from the order. -/
theorem Shape.evictTail {a : Arena κ ν} {order : List Slot} (h : a.Shape order) {e : κ × ν}
    {a' : Arena κ ν} (hev : a.evictTail = .ok (e, a')) :
    ∃ t r, order.getLast? = some t ∧ a.remove t = .ok (r, a') ∧ e = (r.key, r.value) ∧
      a'.Shape (order.erase t) := by
  obtain ⟨t, r, ht, hr, rfl⟩ := evictTail_eq_ok.mp hev
  exact ⟨t, r, h.tail_eq ▸ ht, hr, rfl, (h.remove hr).1⟩

/-- Replacing a value keeps the shape and the order. -/
theorem Shape.replace {a : Arena κ ν} {order : List Slot} (h : a.Shape order) {s : Slot}
    {v old : ν} {a' : Arena κ ν} (hrep : a.replace s v = .ok (old, a')) : a'.Shape order := by
  have hft := h.free_threads.replace hrep
  obtain ⟨n, hn, -, rfl⟩ := replace_eq_ok.mp hrep
  have hcell : ∀ t, (a.modifyNode s fun m => { m with value := v }).node? t =
      if s = t then (a.node? t).map (fun m => { m with value := v }) else a.node? t :=
    fun t => node?_modifyNode a s t _
  have hlinks : ∀ t, ((a.modifyNode s fun m => { m with value := v }).node? t).map Node.links =
      (a.node? t).map Node.links := by
    intro t
    rw [hcell]
    split
    · rw [Option.map_map]
      rfl
    · rfl
  have hseq : ∀ t, ((a.modifyNode s fun m => { m with value := v }).node? t).map Node.seq =
      (a.node? t).map Node.seq := by
    intro t
    rw [hcell]
    split
    · rw [Option.map_map]
      rfl
    · rfl
  have hlive : ∀ t, ((a.modifyNode s fun m => { m with value := v }).node? t).isSome =
      (a.node? t).isSome := by
    intro t
    rw [← Option.isSome_map (f := Node.links), hlinks, Option.isSome_map]
  have hstamp : ∀ t, (a.modifyNode s fun m => { m with value := v }).stampAt t = a.stampAt t := by
    intro t
    unfold stampAt
    rw [hseq]
  refine { toThreads := h.toThreads.of_links (fun t _ => hlinks t) rfl rfl,
           live_mem := fun t ht => h.live_mem t (hlive t ▸ ht), size_eq := h.size_eq,
           stamps := ?_, stamp_le := ?_, free_threads := hft.self,
           count := by simpa [hft.freeList_eq] using h.count,
           cells_le := by simpa using h.cells_le }
  · refine h.stamps.imp fun {x y} hxy => ?_
    rw [hstamp x, hstamp y]
    exact hxy
  · intro t m hm
    have := hseq t
    rw [hm, Option.map_some] at this
    obtain ⟨o, ho, hom⟩ := Option.map_eq_some_iff.mp this.symm
    rw [modifyNode_generation, ← hom]
    exact h.stamp_le t o ho

end Arena

end RecencyMap
