import RecencyMap.Proofs.Arena.Entries
import RecencyMap.Proofs.Map.Describes
import RecencyMap.Cursor

/-!
# Consistent maps

A map is consistent when its arena is shaped and its index describes the arena's entries.
Every operation of a map keeps it consistent, and on a consistent map none of them faults
except on a slot that holds nothing. Each operation gets one lemma here that says what it
answers and which entries it leaves, in terms of the entries before it; the refinement of the
naive model and the invariant of sessions are both read off these lemmas.
-/

namespace RecencyMap

/-- The key and value an entry stores. -/
def Recency.Entry.pair {κ ν : Type} (e : Recency.Entry κ ν) : κ × ν := (e.key, e.value)

namespace Lru

variable {κ ν : Type} [BEq κ] [Hashable κ]

/-- The arena is shaped and the index describes its entries. -/
structure Consistent (m : Lru (SomeIndex κ) κ ν) : Prop where
  shape : ∃ order, m.arena.Shape order
  describes : m.index.Describes m.arena.view.entries

/-- `m'` is a consistent map with the capacity and the key equivalence of `m`, whose entries,
most recent first, are `es`: what an operation on `m` leaves. -/
structure Follows (m' m : Lru (SomeIndex κ) κ ν) (es : List (Recency.Entry κ ν)) : Prop where
  consistent : m'.Consistent
  entries_eq : m'.arena.view.entries = es
  capacity_eq : m'.capacity = m.capacity
  eqv_eq : m'.index.eqv = m.index.eqv

/-- What follows what follows `m` follows `m`. -/
theorem Follows.trans {m m1 m2 : Lru (SomeIndex κ) κ ν} {es1 es2 : List (Recency.Entry κ ν)}
    (h2 : m2.Follows m1 es2) (h1 : m1.Follows m es1) : m2.Follows m es2 :=
  ⟨h2.consistent, h2.entries_eq, h2.capacity_eq.trans h1.capacity_eq, h2.eqv_eq.trans h1.eqv_eq⟩

theorem Consistent.follows_self {m : Lru (SomeIndex κ) κ ν} (hc : m.Consistent) :
    m.Follows m m.arena.view.entries :=
  ⟨hc, rfl, rfl, rfl⟩

theorem toList_eq (m : Lru (SomeIndex κ) κ ν) :
    m.toList = m.arena.view.entries.map Recency.Entry.pair := by
  simp only [toList, Arena.view, List.map_map]
  rfl

theorem keys_eq (m : Lru (SomeIndex κ) κ ν) :
    m.keys = m.arena.view.entries.map Recency.Entry.key := by
  simp only [keys, Arena.view, List.map_map]
  rfl

theorem Consistent.size_eq {m : Lru (SomeIndex κ) κ ν} (hc : m.Consistent) :
    m.size = m.arena.view.entries.length := by
  obtain ⟨order, h⟩ := hc.shape
  exact (h.view_length).symm

/-- A new map over an empty index that agrees with its keys is consistent. -/
theorem consistent_create {c : Int} {ix : SomeIndex κ} {m : Lru (SomeIndex κ) κ ν}
    (hcreate : Lru.create? c ix = .ok m) (hempty : ix.Describes ([] : List (Recency.Entry κ ν))) :
    m.Consistent := by
  unfold create? at hcreate
  split at hcreate
  · cases hcreate
  · split at hcreate
    · cases hcreate
    · cases hcreate
      exact ⟨⟨[], Arena.Shape.empty _⟩, hempty⟩

/-! ## Each operation on a consistent map -/

section Operations

variable {m : Lru (SomeIndex κ) κ ν}

/-- A key that the index finds belongs to an entry whose key the index takes for it. -/
theorem Consistent.find?_some (hc : m.Consistent) {k : κ} {s : Slot} (hs : m.find? k = some s) :
    ∃ e ∈ m.arena.view.entries, e.slot = s ∧ m.index.eqv e.key k = true :=
  hc.describes.entry_of_find k s hs

/-- Pushing a key the index finds replaces the value of its entry, keeps the stored key and
moves the entry to the front; the index is untouched. -/
theorem Consistent.push_found (hc : m.Consistent) {e : Recency.Entry κ ν}
    (he : e ∈ m.arena.view.entries) {k : κ} (hk : m.index.eqv e.key k = true) (v : ν) :
    ∃ m' sigs, m.push k v = .ok (.replaced k e.value, m', sigs) ∧
      m'.Follows m ({ e with value := v, seq := m.generation + 1 } ::
        m.arena.view.entries.filter fun x => x.slot != e.slot) := by
  obtain ⟨⟨order, hshape⟩, hdesc⟩ := hc
  obtain ⟨a, ix⟩ := m
  have hfind : KeyIndex.find? ix k = some e.slot :=
    (hdesc.find?_eq_some_iff k e.slot).mpr ⟨e, he, rfl, hk⟩
  obtain ⟨a1, hrep, hview1, hshape1⟩ := hshape.replace_live he v
  -- the entry to move is the one whose value was replaced
  have he1 : { e with value := v } ∈ a1.view.entries := by
    rw [hview1]
    exact List.mem_map.mpr ⟨e, he, by simp⟩
  obtain ⟨a2, hmove, hview2, hshape2⟩ := hshape1.moveToHead_live he1
  have hdesc1 : ix.Describes a1.view.entries := by
    rw [hview1]
    exact hdesc.map _ (fun x => by split <;> rfl) (fun x => by split <;> rfl)
  refine ⟨⟨a2, ix⟩, [.replaced], ?_, ⟨⟨_, hshape2⟩, ?_⟩, ?_, ?_, rfl⟩
  · simp only [Lru.push, hfind, hrep, bind, Except.bind]
    rw [show e.slot = ({ e with value := v } : Recency.Entry κ ν).slot from rfl, hmove]
    rfl
  · rw [hview2]
    exact hdesc1.move he1 _
  · rw [hview2, hview1]
    simp only [Recency.without]
    rw [Recency.filter_map_update e.slot (fun x => { x with value := v }) (fun _ => rfl)]
    rfl
  · show a2.view.capacity = a.view.capacity
    rw [hview2, hview1]

/-- Pushing a key the index does not find into a map with room puts a new entry in front. -/
theorem Consistent.push_room (hc : m.Consistent) {k : κ} (hk : m.find? k = none)
    (hroom : m.arena.view.entries.length < m.capacity) (v : ν) :
    ∃ s m' sigs, m.push k v = .ok (.fresh, m', sigs) ∧
      m'.Follows m ({ slot := s, key := k, value := v, seq := m.generation + 1 } ::
        m.arena.view.entries) := by
  obtain ⟨⟨order, hshape⟩, hdesc⟩ := hc
  obtain ⟨a, ix⟩ := m
  have hnotfull : a.isFull = false := by
    have hlen := hshape.view_length
    have hcap : a.size < a.capacity := by
      rw [← hlen]
      exact hroom
    simp only [Arena.isFull, beq_eq_false_iff_ne]
    omega
  obtain ⟨a', hins, hview, hshape'⟩ := hshape.insertAtHead_room hnotfull k v
  -- the slot taken is not one of an entry
  have hs : a.freeList.headD a.cells.size ∉ a.view.entries.map Recency.Entry.slot := by
    have hnd := hshape'.nodup
    rw [← hshape.view_slots] at hnd
    exact (List.nodup_cons.mp hnd).1
  refine ⟨a.freeList.headD a.cells.size, ⟨a', KeyIndex.insert ix k (a.freeList.headD a.cells.size)⟩,
    [.resized a'.size], ?_, ⟨⟨_, hshape'⟩, ?_⟩, ?_, ?_, SomeIndex.eqv_insert _ _ _⟩
  · simp only [find?] at hk
    simp [Lru.push, hk, hnotfull, hins, bind, Except.bind, pure, Except.pure]
  · rw [hview]
    exact hdesc.insert hk hs v _
  · rw [hview]
    rfl
  · show a'.view.capacity = a.view.capacity
    rw [hview]

/-- Pushing a key the index does not find into a full map evicts the last entry, erases its
key, and puts a new entry in front in the slot just freed. -/
theorem Consistent.push_full (hc : m.Consistent) {k : κ} (hk : m.find? k = none)
    (hfull : m.arena.view.entries.length = m.capacity) {el : Recency.Entry κ ν}
    (hlast : m.arena.view.entries.getLast? = some el) (v : ν) :
    ∃ m' sigs, m.push k v = .ok (.evicted el.key el.value, m', sigs) ∧
      m'.Follows m ({ slot := el.slot, key := k, value := v, seq := m.generation + 2 } ::
        m.arena.view.entries.filter fun x => x.slot != el.slot) := by
  obtain ⟨⟨order, hshape⟩, hdesc⟩ := hc
  obtain ⟨a, ix⟩ := m
  have hel : el ∈ a.view.entries := List.mem_of_getLast? hlast
  have hisfull : a.isFull = true := by
    have hlen := hshape.view_length
    simp only [Arena.isFull, beq_iff_eq]
    rw [← hlen]
    exact hfull
  obtain ⟨a1, hev, hview1, hshape1⟩ := hshape.evictTail_last hlast
  have hdesc1 : (KeyIndex.erase ix el.key).Describes a1.view.entries := by
    rw [hview1]
    exact hdesc.erase hel
  -- after the eviction there is room, and the freed slot is on top of the free list
  have hlen1 : a1.view.entries.length + 1 = a.view.entries.length := by
    rw [hview1]
    exact Recency.length_others hdesc.nodup hel
  have hnotfull : a1.isFull = false := by
    have hsz1 : a1.view.entries.length = a1.size := hshape1.view_length
    have hcap1 : a1.capacity = a.capacity := by
      show a1.view.capacity = a.view.capacity
      rw [hview1]
    have hsz : a.view.entries.length = a.size := hshape.view_length
    have hfull' : a.view.entries.length = a.capacity := hfull
    simp only [Arena.isFull, beq_eq_false_iff_ne]
    omega
  have htop : a1.freeList.headD a1.cells.size = el.slot := by
    have hfree : a1.view.free = el.slot :: a.view.free := by rw [hview1]
    rw [Arena.view_free] at hfree
    rw [hfree, List.headD_cons]
  obtain ⟨a2, hins, hview2, hshape2⟩ := hshape1.insertAtHead_room hnotfull k v
  rw [htop] at hins hview2 hshape2
  have hk1 : KeyIndex.find? (KeyIndex.erase ix el.key) k = none := by
    simp only [find?] at hk
    rw [SomeIndex.find?_erase hdesc.lawful, hk]
    split <;> rfl
  have hs : el.slot ∉ a1.view.entries.map Recency.Entry.slot := by
    rw [hview1]
    intro hmem
    obtain ⟨x, hx, hxs⟩ := List.mem_map.mp hmem
    exact (Recency.mem_others.mp hx).2 hxs
  refine ⟨⟨a2, KeyIndex.insert (KeyIndex.erase ix el.key) k el.slot⟩,
    [.resized a2.size, .evicted el.key el.value a2.size a2.generation], ?_,
    ⟨⟨_, hshape2⟩, ?_⟩, ?_, ?_, by simp⟩
  · simp only [find?] at hk
    simp [Lru.push, hk, hisfull, hev, hins, bind, Except.bind, pure, Except.pure]
  · rw [hview2]
    exact hdesc1.insert hk1 hs v _
  · rw [hview2, hview1]
    rfl
  · show a2.view.capacity = a.view.capacity
    rw [hview2, hview1]

/-- Reading a key the index finds answers its value and moves its entry to the front. -/
theorem Consistent.get_found (hc : m.Consistent) {e : Recency.Entry κ ν}
    (he : e ∈ m.arena.view.entries) {k : κ} (hk : m.index.eqv e.key k = true) :
    ∃ m' sigs, m.get k = .ok (some e.value, m', sigs) ∧
      m'.Follows m ({ e with seq := m.generation + 1 } ::
        m.arena.view.entries.filter fun x => x.slot != e.slot) := by
  obtain ⟨⟨order, hshape⟩, hdesc⟩ := hc
  obtain ⟨a, ix⟩ := m
  have hfind : KeyIndex.find? ix k = some e.slot :=
    (hdesc.find?_eq_some_iff k e.slot).mpr ⟨e, he, rfl, hk⟩
  obtain ⟨a1, hmove, hview1, hshape1⟩ := hshape.moveToHead_live he
  -- the value is read after the move, from the moved entry
  have he1 : { e with seq := a.view.generation + 1 } ∈ a1.view.entries := by
    rw [hview1]
    exact List.mem_cons_self
  have hval := hshape1.value?_live he1
  refine ⟨⟨a1, ix⟩, [.hit], ?_, ⟨⟨_, hshape1⟩, ?_⟩, ?_, ?_, rfl⟩
  · simp only [Lru.get, hfind, hmove, bind, Except.bind]
    rw [show e.slot = ({ e with seq := a.view.generation + 1 } : Recency.Entry κ ν).slot from rfl,
      hval]
    rfl
  · rw [hview1]
    exact hdesc.move he _
  · rw [hview1]
    rfl
  · show a1.view.capacity = a.view.capacity
    rw [hview1]

/-- Reading a key the index does not find answers nothing and changes nothing. -/
theorem get_missing {k : κ} (hk : m.find? k = none) : m.get k = .ok (none, m, [.miss]) := by
  obtain ⟨a, ix⟩ := m
  simp only [find?] at hk
  simp [Lru.get, hk]

theorem Consistent.peek_found (hc : m.Consistent) {e : Recency.Entry κ ν}
    (he : e ∈ m.arena.view.entries) {k : κ} (hk : m.index.eqv e.key k = true) :
    m.peek k = .ok (some e.value) := by
  obtain ⟨⟨order, hshape⟩, hdesc⟩ := hc
  have hfind : m.find? k = some e.slot :=
    (hdesc.find?_eq_some_iff k e.slot).mpr ⟨e, he, rfl, hk⟩
  simp [Lru.peek, hfind, hshape.value?_live he, Functor.map, Except.map]

theorem peek_missing {k : κ} (hk : m.find? k = none) : m.peek k = .ok none := by
  simp [Lru.peek, hk]

/-- Taking a live entry hands back its payload and neighbours, drops it and erases its key. -/
theorem Consistent.take_live (hc : m.Consistent) {e : Recency.Entry κ ν}
    (he : e ∈ m.arena.view.entries) :
    ∃ m' sigs, m.take e.slot =
        .ok ({ key := e.key, value := e.value, next := nextIn m.arena.view.slots e.slot,
               prev := prevIn m.arena.view.slots e.slot }, m', sigs) ∧
      m'.Follows m (m.arena.view.entries.filter fun x => x.slot != e.slot) ∧
      m'.index = KeyIndex.erase m.index e.key := by
  obtain ⟨⟨order, hshape⟩, hdesc⟩ := hc
  obtain ⟨a, ix⟩ := m
  obtain ⟨a1, hrem, hview1, hshape1⟩ := hshape.remove_live he
  have hslots : a.view.slots = order := hshape.view_slots
  refine ⟨⟨a1, KeyIndex.erase ix e.key⟩, [.resized a1.size], ?_,
    ⟨⟨⟨_, hshape1⟩, ?_⟩, ?_, ?_, SomeIndex.eqv_erase _ _⟩, rfl⟩
  · simp only [Lru.take, hslots, hrem, bind, Except.bind, pure, Except.pure]
  · rw [hview1]
    exact hdesc.erase he
  · rw [hview1]
    rfl
  · show a1.view.capacity = a.view.capacity
    rw [hview1]

/-- Taking at a slot that holds no entry faults and changes nothing. -/
theorem Consistent.take_dead (hc : m.Consistent) {s : Slot} (hs : s ∉ m.arena.view.slots) :
    m.take s = .error (.deadSlot .remove s) := by
  obtain ⟨⟨order, hshape⟩, -⟩ := hc
  simp [Lru.take, Arena.remove, hshape.live?_dead hs, bind, Except.bind]

/-- A consistent map holds at most its capacity. -/
theorem Consistent.length_le (hc : m.Consistent) : m.arena.view.entries.length ≤ m.capacity := by
  obtain ⟨order, h⟩ := hc.shape
  have hlen : m.arena.view.entries.length = order.length := by rw [h.view_length, h.size_eq]
  have hcount := h.count
  have hcells := h.cells_le
  show m.arena.view.entries.length ≤ m.arena.capacity
  omega

/-- The key at the slot of an entry of the map, if there is one, is that entry's key. -/
theorem Consistent.keyAt_map (hc : m.Consistent) {o : Option (Recency.Entry κ ν)}
    (ho : ∀ e ∈ o, e ∈ m.arena.view.entries) :
    m.keyAt (o.map Recency.Entry.slot) = .ok (o.map Recency.Entry.key) := by
  obtain ⟨order, h⟩ := hc.shape
  cases o with
  | none => rfl
  | some e => simp [keyAt, h.key?_live (ho e rfl), Functor.map, Except.map]

theorem Consistent.head_eq (hc : m.Consistent) :
    m.arena.head = m.arena.view.entries.head?.map Recency.Entry.slot := by
  obtain ⟨order, h⟩ := hc.shape
  rw [h.head_eq, ← h.view_slots, Recency.slots, List.head?_map]

theorem Consistent.headKey_eq (hc : m.Consistent) :
    m.headKey = .ok (m.arena.view.entries.head?.map Recency.Entry.key) := by
  rw [headKey, hc.head_eq]
  exact hc.keyAt_map fun e he => List.mem_of_mem_head? he

theorem Consistent.tailKey_eq (hc : m.Consistent) :
    m.tailKey = .ok (m.arena.view.entries.getLast?.map Recency.Entry.key) := by
  obtain ⟨order, h⟩ := hc.shape
  have htail : m.arena.tail = m.arena.view.entries.getLast?.map Recency.Entry.slot := by
    rw [h.tail_eq, ← h.view_slots, Recency.slots, List.getLast?_map]
  rw [tailKey, htail]
  exact hc.keyAt_map fun e he => List.mem_of_getLast? he

/-- Taking the front entry `n` times hands back the first `n` pairs, most recent first, and
leaves the rest. -/
theorem Consistent.takeHeads (hc : m.Consistent) (n : Nat) :
    ∃ m' sigs, m.takeHeads n =
        .ok ((m.arena.view.entries.take n).map Recency.Entry.pair, m', sigs) ∧
      m'.Follows m (m.arena.view.entries.drop n) := by
  induction n generalizing m with
  | zero => exact ⟨m, [], rfl, hc, rfl, rfl, rfl⟩
  | succ n ih =>
    have hhead := hc.head_eq
    cases hes : m.arena.view.entries with
    | nil =>
      rw [hes] at hhead
      exact ⟨m, [], by simp [Lru.takeHeads, hhead], hc, hes, rfl, rfl⟩
    | cons e rest =>
      rw [hes] at hhead
      have he : e ∈ m.arena.view.entries := by
        rw [hes]
        exact List.mem_cons_self
      obtain ⟨m1, sigs1, htake, hf1, -⟩ := hc.take_live he
      -- the front entry's slot is no other entry's, so taking it leaves the rest
      have hrest : (m.arena.view.entries.filter fun x => x.slot != e.slot) = rest := by
        have hnd := hc.describes.nodup
        rw [hes] at hnd ⊢
        exact Recency.filter_head hnd
      rw [hrest] at hf1
      obtain ⟨m2, sigs2, hrun, hf2⟩ := ih hf1.consistent
      rw [hf1.entries_eq] at hrun hf2
      refine ⟨m2, sigs1 ++ sigs2, ?_, hf2.trans hf1⟩
      simp [Lru.takeHeads, hhead, htake, hrun, bind, Except.bind, pure, Except.pure,
        Recency.Entry.pair]

/-- Draining takes the first `limit` pairs, or all of them. -/
theorem Consistent.drain (hc : m.Consistent) (limit : Option Nat) :
    ∃ m' sigs, m.drain limit =
        .ok ((m.arena.view.entries.take (limit.getD m.size)).map Recency.Entry.pair, m', sigs) ∧
      m'.Follows m (m.arena.view.entries.drop (limit.getD m.size)) := by
  obtain ⟨m', sigs, htake, hf⟩ := hc.takeHeads (limit.getD m.size)
  -- the signals are those of the takes and the drain's own report
  exact ⟨m', _, by simp only [Lru.drain, htake, bind, Except.bind, pure, Except.pure]; rfl, hf⟩

/-- Taking through a cursor at a live entry takes the entry; the cursor handed back sits at
the entry's neighbour on the side asked for. -/
theorem Consistent.cursor_take_live (hc : m.Consistent) {e : Recency.Entry κ ν}
    (he : e ∈ m.arena.view.entries) (c : Cursor) (hs : c.slot = e.slot) (towardsTail : Bool) :
    ∃ m' sigs, c.take m towardsTail =
        .ok ((e.pair, (if towardsTail then nextIn m.arena.view.slots e.slot
          else prevIn m.arena.view.slots e.slot).map m'.cursorAt), m', sigs) ∧
      m'.Follows m (m.arena.view.entries.filter fun x => x.slot != e.slot) := by
  obtain ⟨m', sigs, htake, hf, -⟩ := hc.take_live he
  refine ⟨m', sigs, ?_, hf⟩
  simp [Cursor.take, Cursor.onSlot, hs, htake, bind, Except.bind, Except.mapError, pure,
    Except.pure, Recency.Entry.pair]

end Operations

end Lru

end RecencyMap
