import RecencyMap.Proofs.Map.Cursors

/-!
# Double-ended walks over a consistent map

A walk has a stretch of the map's entries left to hand out: a contiguous run of the entries,
most recent first, from its front to its back, or nothing once it is done. A step from the
front hands out the first entry of the stretch and keeps the rest; a step from the back hands
out the last entry and keeps the ones before it. So a walk is a double-ended queue over its
stretch, and `yields` says what such a queue hands out for any sequence of calls.

The main facts:

* `yieldsOnce_yields`: a double-ended queue hands out every element exactly once, the front
  calls from the first element on and the back calls from the last one back, until the two
  meet;
* `Walk.Spans.next`, `Walk.Spans.nextBack`: one step of a walk over a consistent map is one
  call on the queue of its stretch;
* `Lru.walk_spans`, `Cursor.walk_spans`: a walk over the whole map has all its entries left,
  and a walk from a cursor has the entries from the cursor's to the least recent one.
-/

namespace RecencyMap

section Queue

variable {α β : Type}

/-- What a double-ended queue over `l` hands out for a sequence of calls, `true` for a call at
the front: a front call takes the first element left, a back call the last one, and a call finds
nothing once no element is left. -/
def yields : List α → List Bool → List (Option α)
  | _, [] => []
  | l, true :: ds => l.head? :: yields l.tail ds
  | l, false :: ds => l.getLast? :: yields l.dropLast ds

/-- What the front calls among `ds` found, in order. -/
def frontYields (ds : List Bool) (rs : List (Option α)) : List α :=
  (ds.zip rs).filterMap fun p => if p.1 then p.2 else none

/-- What the back calls among `ds` found, in order. -/
def backYields (ds : List Bool) (rs : List (Option α)) : List α :=
  (ds.zip rs).filterMap fun p => if p.1 then none else p.2

@[simp] theorem frontYields_cons (d : Bool) (ds : List Bool) (r : Option α)
    (rs : List (Option α)) :
    frontYields (d :: ds) (r :: rs) =
      ((if d then r else none).toList ++ frontYields ds rs) := by
  cases d <;> cases r <;> simp [frontYields]

@[simp] theorem backYields_cons (d : Bool) (ds : List Bool) (r : Option α)
    (rs : List (Option α)) :
    backYields (d :: ds) (r :: rs) =
      ((if d then none else r).toList ++ backYields ds rs) := by
  cases d <;> cases r <;> simp [backYields]

theorem yields_map (f : α → β) (l : List α) (ds : List Bool) :
    yields (l.map f) ds = (yields l ds).map (Option.map f) := by
  induction ds generalizing l with
  | nil => rfl
  | cons d ds ih =>
    cases d with
    | true => simp only [yields, List.head?_map, ← List.map_tail, ih, List.map_cons]
    | false => simp only [yields, List.getLast?_map, ← List.map_dropLast, ih, List.map_cons]

theorem length_yields (l : List α) (ds : List Bool) : (yields l ds).length = ds.length := by
  induction ds generalizing l with
  | nil => rfl
  | cons d ds ih => cases d <;> simp [yields, ih]

/-- An empty queue finds nothing. -/
theorem yields_nil (ds : List Bool) : yields ([] : List α) ds = ds.map fun _ => none := by
  induction ds with
  | nil => rfl
  | cons d ds ih => cases d <;> simp [yields, ih]

/-- Calls on an empty queue hand out nothing from either end. -/
theorem yields_nil_fronts_backs (ds : List Bool) :
    frontYields ds (yields ([] : List α) ds) = [] ∧
      backYields ds (yields ([] : List α) ds) = [] := by
  rw [yields_nil]
  induction ds with
  | nil => exact ⟨rfl, rfl⟩
  | cons d ds ih => simpa using ih

/-- The calls take the first elements of `l` from the front and the last ones from the back,
and leave a middle stretch as long as the calls fell short of `l`. The induction is on the
calls, over every queue. -/
theorem yields_split (l : List α) (ds : List Bool) :
    ∃ mid, l = frontYields ds (yields l ds) ++ mid ++ (backYields ds (yields l ds)).reverse ∧
      mid.length = l.length - ds.length := by
  induction ds generalizing l with
  | nil => exact ⟨l, by simp [yields, frontYields, backYields], by simp⟩
  | cons d ds ih =>
    -- an empty queue stays empty and hands out nothing
    have hempty : l = [] → ∃ mid, l = frontYields (d :: ds) (yields l (d :: ds)) ++ mid ++
        (backYields (d :: ds) (yields l (d :: ds))).reverse ∧
          mid.length = l.length - (d :: ds).length := by
      rintro rfl
      obtain ⟨hf, hb⟩ := yields_nil_fronts_backs (α := α) ds
      refine ⟨[], ?_, by simp⟩
      cases d <;> simp [yields, hf, hb]
    cases d with
    | true =>
      cases l with
      | nil => exact hempty rfl
      | cons x l =>
        obtain ⟨mid, hsplit, hlen⟩ := ih l
        refine ⟨mid, by simpa [yields] using hsplit, ?_⟩
        simp only [List.length_cons]
        omega
    | false =>
      rcases List.eq_nil_or_concat l with rfl | ⟨init, x, rfl⟩
      · exact hempty rfl
      · obtain ⟨mid, hsplit, hlen⟩ := ih init
        rw [List.concat_eq_append]
        have hlast := congrArg (· ++ [x]) hsplit
        refine ⟨mid, by simpa [yields, List.append_assoc] using hlast, ?_⟩
        simp only [List.length_append, List.length_cons, List.length_nil]
        omega

/-- The first `min |ds| |l|` calls find something and the later ones nothing. -/
theorem isSome_yields (l : List α) (ds : List Bool) :
    (yields l ds).map Option.isSome =
      List.replicate (min ds.length l.length) true ++
        List.replicate (ds.length - l.length) false := by
  induction ds generalizing l with
  | nil => simp [yields]
  | cons d ds ih =>
    -- every call that finds something shortens the queue by one
    have hstep : ∀ (o : Option α) (l' : List α), (o.isSome ↔ l ≠ []) →
        l'.length = l.length - 1 →
        o.isSome :: (yields l' ds).map Option.isSome =
          List.replicate (min (ds.length + 1) l.length) true ++
            List.replicate (ds.length + 1 - l.length) false := by
      intro o l' ho hl'
      rw [ih l', hl']
      cases l with
      | nil =>
        have : o.isSome = false := by simpa using ho
        simp [this, List.replicate_succ]
      | cons x l =>
        have : o.isSome = true := by simpa using ho
        simp only [this, List.length_cons, Nat.add_sub_cancel]
        rw [Nat.min_def, Nat.min_def]
        split <;> split <;> simp [List.replicate_succ] <;> omega
    cases d with
    | true => exact hstep _ _ (by cases l <;> simp) (by simp)
    | false => exact hstep _ _ (by cases l <;> simp) (by simp)

/-- The answers `rs` of the calls `ds` hand out every element of `l` exactly once: the front
calls that find something find the first elements of `l` in order, the back calls that find
something find the last ones from the end, the first `min |ds| |l|` calls find something and the
later ones nothing, and calls enough to empty `l` hand out all of it. -/
structure YieldsOnce (l : List α) (ds : List Bool) (rs : List (Option α)) : Prop where
  fronts : frontYields ds rs = l.take (frontYields ds rs).length
  backs : backYields ds rs = l.reverse.take (backYields ds rs).length
  found : rs.map Option.isSome =
    List.replicate (min ds.length l.length) true ++ List.replicate (ds.length - l.length) false
  all : l.length ≤ ds.length → frontYields ds rs ++ (backYields ds rs).reverse = l

/-- A double-ended queue hands out every element exactly once. -/
theorem yieldsOnce_yields (l : List α) (ds : List Bool) : YieldsOnce l ds (yields l ds) := by
  obtain ⟨mid, hsplit, hlen⟩ := yields_split l ds
  refine ⟨?_, ?_, isSome_yields l ds, fun hle => ?_⟩
  · exact (List.prefix_iff_eq_take.mp ⟨_, by rw [List.append_assoc] at hsplit; exact hsplit.symm⟩)
  · have hsuffix : (backYields ds (yields l ds)).reverse <:+ l := ⟨_, hsplit.symm⟩
    have hprefix := List.reverse_prefix.mpr hsuffix
    rw [List.reverse_reverse] at hprefix
    exact List.prefix_iff_eq_take.mp hprefix
  · have hmid : mid = [] := List.eq_nil_of_length_eq_zero (by omega)
    rw [hmid, List.append_nil] at hsplit
    exact hsplit.symm

/-- As many front calls as `n` hand out the first `n` elements. -/
theorem yields_fronts (l : List α) (n : Nat) :
    (yields l (List.replicate n true)).filterMap id = l.take n := by
  induction n generalizing l with
  | zero => rfl
  | succ n ih =>
    cases l with
    | nil => simp [yields_nil]
    | cons x l =>
      rw [List.replicate_succ, yields, List.head?_cons, List.tail_cons,
        List.filterMap_cons_some (f := id) rfl, ih, List.take_succ_cons]

/-- As many back calls as `n` hand out the last `n` elements, from the end. -/
theorem yields_backs (l : List α) (n : Nat) :
    (yields l (List.replicate n false)).filterMap id = l.reverse.take n := by
  induction n generalizing l with
  | zero => rfl
  | succ n ih =>
    rcases List.eq_nil_or_concat l with rfl | ⟨init, x, rfl⟩
    · simp [yields_nil]
    · rw [List.concat_eq_append, List.replicate_succ, yields, List.getLast?_concat,
        List.dropLast_concat, List.filterMap_cons_some (f := id) rfl, ih, List.reverse_concat,
        List.take_succ_cons]

/-- In a list whose images under `f` are distinct, an element whose image is the image of the
last element is the only one. -/
theorem tail_eq_nil_of_getLast? {f : α → β} {x : α} {rest : List α}
    (hnd : ((x :: rest).map f).Nodup) (hlast : (x :: rest).getLast?.map f = some (f x)) :
    rest = [] := by
  cases rest with
  | nil => rfl
  | cons y rest =>
    exfalso
    have hmem : (y :: rest).getLast (List.cons_ne_nil y rest) ∈ y :: rest := List.getLast_mem _
    rw [List.getLast?_cons_cons, List.getLast?_eq_some_getLast (List.cons_ne_nil y rest),
      Option.map_some, Option.some.injEq] at hlast
    rw [List.map_cons, List.nodup_cons] at hnd
    exact hnd.1 (hlast ▸ List.mem_map_of_mem hmem)

/-- In a list whose images under `f` are distinct, an element whose image is the image of the
first element is the only one. -/
theorem init_eq_nil_of_head? {f : α → β} {x : α} {init : List α}
    (hnd : ((init ++ [x]).map f).Nodup) (hhead : (init ++ [x]).head?.map f = some (f x)) :
    init = [] := by
  have hrev : (init ++ [x]).reverse = x :: init.reverse := by simp
  have hnd' : ((x :: init.reverse).map f).Nodup := by
    rw [← hrev, List.map_reverse]
    exact List.nodup_reverse.mpr hnd
  have hlast : (x :: init.reverse).getLast?.map f = some (f x) := by
    rw [← hrev, List.getLast?_reverse]
    exact hhead
  exact List.reverse_eq_nil_iff.mp (tail_eq_nil_of_getLast? hnd' hlast)

end Queue

namespace Arena

variable {κ ν : Type} {a : Arena κ ν} {order : List Slot}

/-- The neighbour towards the tail of a live entry is the slot after it. -/
theorem Shape.next?_live (h : a.Shape order) {e : Recency.Entry κ ν} (he : e ∈ a.view.entries) :
    a.next? e.slot = .ok (nextIn a.view.slots e.slot) := by
  rw [← h.view_next?]
  simp [Recency.next?, Recency.entry_of_mem h.view_nodup he, Functor.map, Except.map]

/-- The neighbour towards the head of a live entry is the slot before it. -/
theorem Shape.prev?_live (h : a.Shape order) {e : Recency.Entry κ ν} (he : e ∈ a.view.entries) :
    a.prev? e.slot = .ok (prevIn a.view.slots e.slot) := by
  rw [← h.view_prev?]
  simp [Recency.prev?, Recency.entry_of_mem h.view_nodup he, Functor.map, Except.map]

end Arena

namespace Walk

variable {κ ν : Type} {a : Arena κ ν} {order : List Slot}

/-- Reading a live entry gives its key and value. -/
theorem entryAt_live (h : a.Shape order) {e : Recency.Entry κ ν} (he : e ∈ a.view.entries) :
    entryAt a e.slot = .ok e.pair := by
  simp [entryAt, h.key?_live he, h.value?_live he, bind, Except.bind, pure, Except.pure,
    Recency.Entry.pair]

/-- A walk over an arena whose entries, most recent first, are `es` has the stretch `seg` of
them left to hand out: nothing once it is done, otherwise a contiguous run of `es` from the
walk's front to its back. -/
def Spans (w : Walk) (es seg : List (Recency.Entry κ ν)) : Prop :=
  seg <:+: es ∧ (w.done = true ∧ seg = [] ∨ w.done = false ∧
    seg.head?.map Recency.Entry.slot = some w.front ∧
    seg.getLast?.map Recency.Entry.slot = some w.back)

/-- A stretch of the entries of a shaped arena holds distinct slots. -/
theorem nodup_of_infix (h : a.Shape order) {seg : List (Recency.Entry κ ν)}
    (hinf : seg <:+: a.view.entries) : (seg.map Recency.Entry.slot).Nodup :=
  h.view_nodup.sublist (hinf.sublist.map _)

/-- A step from the front of a walk over a shaped arena hands out the first entry of its
stretch and leaves the walk with the rest. -/
theorem Spans.next (h : a.Shape order) {w : Walk} {seg : List (Recency.Entry κ ν)}
    (hw : w.Spans a.view.entries seg) :
    (w.next a).2 = .ok (seg.head?.map Recency.Entry.pair) ∧
      (w.next a).1.Spans a.view.entries seg.tail := by
  obtain ⟨hinf, ⟨hdone, rfl⟩ | ⟨hdone, hfront, hback⟩⟩ := hw
  · simp only [Walk.next, hdone, if_true]
    exact ⟨rfl, List.nil_infix, Or.inl ⟨hdone, rfl⟩⟩
  cases seg with
  | nil => simp at hfront
  | cons x rest =>
  have hnd := nodup_of_infix h hinf
  obtain ⟨p, q, hes⟩ := hinf
  have hx : x ∈ a.view.entries := by simp [← hes]
  have hfx : x.slot = w.front := by simpa using hfront
  have hread := entryAt_live h hx
  by_cases hxb : x.slot = w.back
  · -- the front is the back, so `x` is the last entry of the stretch
    obtain rfl : rest = [] := tail_eq_nil_of_getLast? hnd (by rw [hback, hxb])
    have hstep : w.next a = ({ w with done := true }, .ok (some x.pair)) := by
      simp [Walk.next, hdone, ← hfx, ← hxb, hread, Functor.map, Except.map]
    rw [hstep]
    exact ⟨rfl, List.nil_infix, Or.inl ⟨rfl, rfl⟩⟩
  · -- the walk moves its front to the next entry, which the stretch still holds
    cases rest with
    | nil => exact absurd (by simpa using hback) hxb
    | cons y rest =>
    have hslots : a.view.slots =
        p.map Recency.Entry.slot ++ x.slot :: (y :: rest ++ q).map Recency.Entry.slot := by
      simp [Recency.slots, ← hes]
    have hnext : a.next? x.slot = .ok (some y.slot) := by
      rw [h.next?_live hx, hslots, nextIn_middle (hslots ▸ h.view_nodup)]
      rfl
    have hne : (x.slot == w.back) = false := by simpa using hxb
    have hstep : w.next a = ({ w with front := y.slot }, .ok (some x.pair)) := by
      simp [Walk.next, hdone, ← hfx, hne, hnext, hread, Functor.map, Except.map]
    rw [hstep]
    refine ⟨rfl, ⟨p ++ [x], q, by simp [← hes]⟩, Or.inr ⟨hdone, rfl, ?_⟩⟩
    simpa [List.getLast?_cons_cons] using hback

/-- A step from the back of a walk over a shaped arena hands out the last entry of its
stretch and leaves the walk with the ones before it. -/
theorem Spans.nextBack (h : a.Shape order) {w : Walk} {seg : List (Recency.Entry κ ν)}
    (hw : w.Spans a.view.entries seg) :
    (w.nextBack a).2 = .ok (seg.getLast?.map Recency.Entry.pair) ∧
      (w.nextBack a).1.Spans a.view.entries seg.dropLast := by
  obtain ⟨hinf, ⟨hdone, rfl⟩ | ⟨hdone, hfront, hback⟩⟩ := hw
  · simp only [Walk.nextBack, hdone, if_true]
    exact ⟨rfl, List.nil_infix, Or.inl ⟨hdone, rfl⟩⟩
  rcases List.eq_nil_or_concat seg with rfl | ⟨init, x, rfl⟩
  · simp at hfront
  rw [List.concat_eq_append] at hinf hfront hback ⊢
  have hnd := nodup_of_infix h hinf
  obtain ⟨p, q, hes⟩ := hinf
  have hx : x ∈ a.view.entries := by simp [← hes]
  have hbx : x.slot = w.back := by simpa using hback
  have hread := entryAt_live h hx
  by_cases hxf : x.slot = w.front
  · -- the back is the front, so `x` is the first entry of the stretch
    obtain rfl : init = [] := init_eq_nil_of_head? hnd (by rw [hfront, hxf])
    have hstep : w.nextBack a = ({ w with done := true }, .ok (some x.pair)) := by
      simp [Walk.nextBack, hdone, ← hbx, ← hxf, hread, Functor.map, Except.map]
    rw [hstep]
    exact ⟨by simp, List.nil_infix, Or.inl ⟨rfl, by simp⟩⟩
  · -- the walk moves its back to the entry before, which the stretch still holds
    rcases List.eq_nil_or_concat init with rfl | ⟨init, y, rfl⟩
    · exact absurd (by simpa using hfront) hxf
    rw [List.concat_eq_append] at hfront hes ⊢
    have hslots : a.view.slots =
        (p ++ init ++ [y]).map Recency.Entry.slot ++ x.slot :: q.map Recency.Entry.slot := by
      simp [Recency.slots, ← hes]
    have hprev : a.prev? x.slot = .ok (some y.slot) := by
      rw [h.prev?_live hx, hslots, prevIn_middle (hslots ▸ h.view_nodup)]
      simp
    have hne : (x.slot == w.front) = false := by simpa using hxf
    have hstep : w.nextBack a = ({ w with back := y.slot }, .ok (some x.pair)) := by
      simp [Walk.nextBack, hdone, ← hbx, hne, hprev, hread, Functor.map, Except.map]
    rw [hstep]
    refine ⟨by simp, ⟨p, [x] ++ q, by simp [← hes]⟩, Or.inr ⟨hdone, ?_, by simp⟩⟩
    simpa using hfront

end Walk

/-! ## Walks a map hands out -/

namespace Lru

variable {κ ν : Type} [BEq κ] [Hashable κ] {m : Lru (SomeIndex κ) κ ν}

theorem Consistent.tail_eq (hc : m.Consistent) :
    m.arena.tail = m.arena.view.entries.getLast?.map Recency.Entry.slot := by
  obtain ⟨order, h⟩ := hc.shape
  rw [h.tail_eq, ← h.view_slots, Recency.slots, List.getLast?_map]

/-- In a map within the largest capacity no entry sits at the handle that names no cell. -/
theorem Consistent.slot_ne_noSlot (hc : m.Consistent) (hcap : m.capacity ≤ maxCapacity)
    {e : Recency.Entry κ ν} (he : e ∈ m.arena.view.entries) : e.slot ≠ noSlot := by
  obtain ⟨order, h⟩ := hc.shape
  intro heq
  have hlt : e.slot < m.arena.cells.size := Arena.lt_size_of_isSome (hc.live_of_mem he)
  rw [heq] at hlt
  -- the live cells lie below the capacity, and the capacity below the missing handle
  have hbound : noSlot < maxCapacity + 1 :=
    Nat.lt_of_lt_of_le hlt (Nat.le_succ_of_le (Nat.le_trans h.cells_le hcap))
  exact absurd hbound (by decide)

/-- A walk over the whole map has all its entries left to hand out. -/
theorem walk_spans (hc : m.Consistent) (hcap : m.capacity ≤ maxCapacity) :
    m.walk.Spans m.arena.view.entries m.arena.view.entries := by
  unfold Lru.walk Walk.between
  rw [hc.head_eq, hc.tail_eq]
  refine ⟨List.infix_refl _, ?_⟩
  cases hes : m.arena.view.entries with
  | nil => exact Or.inl ⟨by simp, rfl⟩
  | cons x rest =>
    -- both ends are entries, so neither is the handle that names no cell
    have hx := hc.slot_ne_noSlot hcap (e := x) (by simp [hes])
    have hmem : (x :: rest).getLast (List.cons_ne_nil x rest) ∈ m.arena.view.entries := by
      rw [hes]
      exact List.getLast_mem _
    have hlast := hc.slot_ne_noSlot hcap hmem
    right
    simp [List.getLast?_eq_some_getLast (List.cons_ne_nil x rest), hx, hlast]

end Lru

namespace Cursor

variable {κ ν : Type} [BEq κ] [Hashable κ] {m : Lru (SomeIndex κ) κ ν}

/-- A walk from a cursor at the entry in position `p` has the entries from position `p` on
left to hand out. -/
theorem walk_spans (hc : m.Consistent) (hcap : m.capacity ≤ maxCapacity) {cur : Cursor}
    {p : Nat} (hp : m.arena.view.slots[p]? = some cur.slot) :
    (cur.walk m).Spans m.arena.view.entries (m.arena.view.entries.drop p) := by
  rw [Recency.slots, List.getElem?_map, Option.map_eq_some_iff] at hp
  obtain ⟨e, he, hslot⟩ := hp
  obtain ⟨hlt, rfl⟩ := List.getElem?_eq_some_iff.mp he
  have hmem : m.arena.view.entries[p] ∈ m.arena.view.entries := List.getElem_mem hlt
  have hne : m.arena.view.entries ≠ [] := List.ne_nil_of_mem hmem
  have hlast := hc.slot_ne_noSlot hcap (List.getLast_mem hne)
  unfold walk Walk.between
  rw [hc.tail_eq, List.drop_eq_getElem_cons hlt]
  refine ⟨List.drop_eq_getElem_cons hlt ▸ (List.drop_suffix p _).isInfix, Or.inr ⟨?_, ?_, ?_⟩⟩
  · simp [← hslot, hc.slot_ne_noSlot hcap hmem, List.getLast?_eq_some_getLast hne, hlast]
  · simp only [List.head?_cons, Option.map_some, hslot]
  · rw [← List.drop_eq_getElem_cons hlt, List.getLast?_drop, if_neg (by omega)]
    simp [List.getLast?_eq_some_getLast hne]

end Cursor

end RecencyMap
