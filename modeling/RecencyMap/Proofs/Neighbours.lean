import Mathlib

/-!
# Neighbours in a list

A recency list is read through its links: each entry names the entry after it and the entry
before it. This file describes those two links on a plain list of distinct elements, so that
the links stored in an arena can be compared with the order they thread:

* `nextIn l x`, the element right after `x` in `l`;
* `prevIn l x`, the element right before it, read as `nextIn` of the reversed list.

The facts collected here say how both neighbours, and the two ends of the list, change when
an element is put in front of the list or erased from it. Every fact about `prevIn` is the
matching fact about `nextIn` on the reversed list.
-/

namespace RecencyMap

variable {α : Type} [DecidableEq α]

/-- The element right after the first occurrence of `x` in `l`. -/
def nextIn : List α → α → Option α
  | [], _ => none
  | y :: l, x => if y = x then l.head? else nextIn l x

/-- The element right before `x` in `l`: its neighbour in the reversed list. -/
def prevIn (l : List α) (x : α) : Option α := nextIn l.reverse x

@[simp]
theorem nextIn_nil (x : α) : nextIn [] x = none := rfl

theorem nextIn_cons (y x : α) (l : List α) :
    nextIn (y :: l) x = if y = x then l.head? else nextIn l x := rfl

@[simp]
theorem nextIn_cons_self (x : α) (l : List α) : nextIn (x :: l) x = l.head? := by
  simp [nextIn_cons]

theorem nextIn_cons_of_ne {y x : α} (h : y ≠ x) (l : List α) :
    nextIn (y :: l) x = nextIn l x := by
  simp [nextIn_cons, h]

/-- An element that is not in the list has no neighbour. -/
theorem nextIn_of_not_mem {l : List α} {x : α} (h : x ∉ l) : nextIn l x = none := by
  induction l with
  | nil => rfl
  | cons y l ih =>
    rw [List.mem_cons, not_or] at h
    rw [nextIn_cons_of_ne (Ne.symm h.1)]
    exact ih h.2

theorem mem_of_nextIn_isSome {l : List α} {x : α} (h : (nextIn l x).isSome) : x ∈ l := by
  by_contra hx
  rw [nextIn_of_not_mem hx] at h
  exact Bool.false_ne_true h

/-- A neighbour is an element of the list. -/
theorem mem_of_nextIn_eq_some {l : List α} {x y : α} (h : nextIn l x = some y) : y ∈ l := by
  induction l with
  | nil => simp at h
  | cons z l ih =>
    rw [nextIn_cons] at h
    split at h
    · exact List.mem_cons_of_mem _ (List.mem_of_mem_head? h)
    · exact List.mem_cons_of_mem _ (ih h)

/-- Appending to a list that holds `x` can only give `x` a neighbour it lacked. -/
theorem nextIn_append_of_mem {l r : List α} {x : α} (h : x ∈ l) :
    nextIn (l ++ r) x = (nextIn l x).or r.head? := by
  induction l with
  | nil => simp at h
  | cons y l ih =>
    by_cases hyx : y = x
    · subst hyx
      simp
    · rw [List.cons_append, nextIn_cons_of_ne hyx, nextIn_cons_of_ne hyx]
      exact ih (List.mem_of_ne_of_mem (Ne.symm hyx) h)

theorem nextIn_append_of_not_mem {l r : List α} {x : α} (h : x ∉ l) :
    nextIn (l ++ r) x = nextIn r x := by
  induction l with
  | nil => rfl
  | cons y l ih =>
    rw [List.mem_cons, not_or] at h
    rw [List.cons_append, nextIn_cons_of_ne (Ne.symm h.1)]
    exact ih h.2

/-- In a list of distinct elements, the neighbour of `x` is what follows it. -/
theorem nextIn_middle {p r : List α} {x : α} (h : (p ++ x :: r).Nodup) :
    nextIn (p ++ x :: r) x = r.head? := by
  have hx : x ∉ p := fun hp => (List.nodup_cons.mp (List.nodup_middle.mp h)).1
    (List.mem_append_left r hp)
  rw [nextIn_append_of_not_mem hx, nextIn_cons_self]

/-- In a list of distinct elements, the element before `x` is what precedes it. -/
theorem prevIn_middle {p r : List α} {x : α} (h : (p ++ x :: r).Nodup) :
    prevIn (p ++ x :: r) x = p.getLast? := by
  have hr : (r.reverse ++ x :: p.reverse).Nodup := by
    simpa using List.nodup_reverse.mpr h
  rw [prevIn, show (p ++ x :: r).reverse = r.reverse ++ x :: p.reverse by simp,
    nextIn_middle hr, List.head?_reverse]

/-- In a list of distinct elements, `y` follows `x` exactly when `[x, y]` is a slice of it. -/
theorem nextIn_eq_some_iff {l : List α} (hl : l.Nodup) {x y : α} :
    nextIn l x = some y ↔ [x, y] <:+: l := by
  induction l with
  | nil => simp
  | cons z l ih =>
    rw [List.nodup_cons] at hl
    rw [nextIn_cons, List.infix_cons_iff]
    by_cases hzx : z = x
    · subst hzx
      have hslice : ¬ [z, y] <:+: l := fun h => hl.1 (h.subset (by simp))
      rw [if_pos rfl]
      cases l with
      | nil => simp [hslice]
      | cons w l => simp [hslice, eq_comm]
    · rw [if_neg hzx, ih hl.2]
      constructor
      · exact Or.inr
      · rintro (h | h)
        · exact absurd (List.cons_prefix_cons.mp h).1 (Ne.symm hzx)
        · exact h

/-- In a list of distinct elements, `x` comes right before `y` exactly when `y` comes right
after `x`. -/
theorem prevIn_eq_some_iff {l : List α} (hl : l.Nodup) {x y : α} :
    prevIn l y = some x ↔ nextIn l x = some y := by
  rw [prevIn, nextIn_eq_some_iff (List.nodup_reverse.mpr hl), nextIn_eq_some_iff hl,
    show [y, x] = [x, y].reverse from rfl, List.reverse_infix]

/-- In a list of distinct elements, the neighbour after `x` is another element of the list. -/
theorem nextIn_mem_ne {l : List α} (hl : l.Nodup) {x y : α} (h : nextIn l x = some y) :
    y ∈ l ∧ y ≠ x := by
  have hslice := (nextIn_eq_some_iff hl).mp h
  have hnd : [x, y].Nodup := hl.sublist hslice.sublist
  exact ⟨hslice.subset (by simp), fun hyx => by simp [hyx] at hnd⟩

/-- In a list of distinct elements, the neighbour before `x` is another element of the list. -/
theorem prevIn_mem_ne {l : List α} (hl : l.Nodup) {x y : α} (h : prevIn l x = some y) :
    y ∈ l ∧ y ≠ x := by
  have hslice := (nextIn_eq_some_iff hl).mp ((prevIn_eq_some_iff hl).mp h)
  have hnd : [y, x].Nodup := hl.sublist hslice.sublist
  exact ⟨hslice.subset (by simp), fun hyx => by simp [hyx] at hnd⟩

/-- In a list of distinct elements, only the last element has nothing after it. -/
theorem nextIn_eq_none_iff {l : List α} (hl : l.Nodup) {x : α} (hx : x ∈ l) :
    nextIn l x = none ↔ l.getLast? = some x := by
  obtain ⟨p, r, rfl⟩ := List.append_of_mem hx
  have hxr : x ∉ r := (List.nodup_cons.mp (List.nodup_middle.mp hl)).1 ∘
    List.mem_append_right p
  rw [nextIn_middle hl, List.getLast?_append, List.getLast?_cons]
  cases r with
  | nil => simp
  | cons w r =>
    have hlast : (w :: r).getLast (List.cons_ne_nil w r) ≠ x :=
      fun h => hxr (h ▸ List.getLast_mem _)
    simp [List.getLast?_eq_some_getLast (List.cons_ne_nil w r), hlast]

/-- In a list of distinct elements, only the first element has nothing before it. -/
theorem prevIn_eq_none_iff {l : List α} (hl : l.Nodup) {x : α} (hx : x ∈ l) :
    prevIn l x = none ↔ l.head? = some x := by
  rw [prevIn, nextIn_eq_none_iff (List.nodup_reverse.mpr hl) (List.mem_reverse.mpr hx),
    List.getLast?_reverse]

/-- Erasing the first element promotes the second; erasing any other leaves the first. -/
theorem head?_erase (l : List α) (s : α) :
    (l.erase s).head? = if l.head? = some s then l.tail.head? else l.head? := by
  cases l with
  | nil => simp
  | cons y l =>
    by_cases hys : y = s
    · subst hys
      simp
    · rw [List.erase_cons_tail (by simpa using hys)]
      simp [hys]

/-- Erasing `s` links the element before it to the element after it, and leaves every other
element's successor alone. -/
theorem nextIn_erase {l : List α} (hl : l.Nodup) {s x : α} (hx : x ≠ s) :
    nextIn (l.erase s) x = if nextIn l x = some s then nextIn l s else nextIn l x := by
  induction l with
  | nil => simp
  | cons y l ih =>
    rw [List.nodup_cons] at hl
    by_cases hys : y = s
    · subst hys
      have hnot : nextIn l x ≠ some y := fun h => hl.1 (mem_of_nextIn_eq_some h)
      rw [List.erase_cons_head, nextIn_cons_of_ne (Ne.symm hx), if_neg hnot]
    · rw [List.erase_cons_tail (by simpa using hys), nextIn_cons_of_ne hys]
      by_cases hyx : y = x
      · subst hyx
        rw [nextIn_cons_self, nextIn_cons_self, head?_erase]
        by_cases hs : l.head? = some s
        · obtain ⟨l', rfl⟩ : ∃ l', l = s :: l' := by
            cases l with
            | nil => simp at hs
            | cons w l' => exact ⟨l', by simpa using hs⟩
          simp
        · simp [hs]
      · rw [nextIn_cons_of_ne hyx, nextIn_cons_of_ne hyx]
        exact ih hl.2

/-- In a list of distinct elements, erasing commutes with reversing. -/
theorem reverse_erase_of_nodup {l : List α} (hl : l.Nodup) (s : α) :
    (l.erase s).reverse = l.reverse.erase s := by
  rw [hl.erase_eq_filter, (List.nodup_reverse.mpr hl).erase_eq_filter, List.filter_reverse]

/-- Erasing `s` links the element after it back to the element before it. -/
theorem prevIn_erase {l : List α} (hl : l.Nodup) {s x : α} (hx : x ≠ s) :
    prevIn (l.erase s) x = if prevIn l x = some s then prevIn l s else prevIn l x := by
  rw [prevIn, reverse_erase_of_nodup hl, nextIn_erase (List.nodup_reverse.mpr hl) hx]
  rfl

/-- Erasing an element of a list of distinct elements: when it was first, the element after
it becomes first. -/
theorem head?_erase_of_mem {l : List α} (hl : l.Nodup) {s : α} (hs : s ∈ l) :
    (l.erase s).head? = if prevIn l s = none then nextIn l s else l.head? := by
  rw [head?_erase]
  by_cases hhead : l.head? = some s
  · rw [if_pos hhead, if_pos ((prevIn_eq_none_iff hl hs).mpr hhead)]
    obtain ⟨l', rfl⟩ : ∃ l', l = s :: l' := by
      cases l with
      | nil => simp at hhead
      | cons w l' => exact ⟨l', by simpa using hhead⟩
    simp
  · rw [if_neg hhead, if_neg (mt (prevIn_eq_none_iff hl hs).mp hhead)]

/-- Erasing an element of a list of distinct elements: when it was last, the element before
it becomes last. -/
theorem getLast?_erase_of_mem {l : List α} (hl : l.Nodup) {s : α} (hs : s ∈ l) :
    (l.erase s).getLast? = if nextIn l s = none then prevIn l s else l.getLast? := by
  rw [← List.head?_reverse, reverse_erase_of_nodup hl,
    head?_erase_of_mem (List.nodup_reverse.mpr hl) (List.mem_reverse.mpr hs), List.head?_reverse]
  simp only [prevIn, List.reverse_reverse]

/-- Putting `s` in front: it has nothing before it. -/
theorem prevIn_cons_self {l : List α} {s : α} (hs : s ∉ l) : prevIn (s :: l) s = none := by
  rw [prevIn, List.reverse_cons, nextIn_append_of_not_mem (by simpa using hs)]
  simp

/-- Putting `s` in front: the old first element now has `s` before it, and every other
element keeps its predecessor. -/
theorem prevIn_cons_of_mem {l : List α} (hl : l.Nodup) {s x : α} (hx : x ∈ l) :
    prevIn (s :: l) x = if l.head? = some x then some s else prevIn l x := by
  rw [prevIn, List.reverse_cons, nextIn_append_of_mem (List.mem_reverse.mpr hx)]
  change (prevIn l x).or (some s) = _
  by_cases hhead : l.head? = some x
  · rw [if_pos hhead, (prevIn_eq_none_iff hl hx).mpr hhead]
    rfl
  · rw [if_neg hhead]
    cases hprev : prevIn l x with
    | none => exact absurd ((prevIn_eq_none_iff hl hx).mp hprev) hhead
    | some p => rfl

/-- Along a list of distinct elements, each element's predecessor is the element listed
before it. -/
theorem map_prevIn_suffix (r : List α) : ∀ p : List α, (p ++ r).Nodup →
    r.map (prevIn (p ++ r)) = (p.getLast? :: r.map some).dropLast := by
  induction r with
  | nil => intro p _; rfl
  | cons x r ih =>
    intro p h
    have hsplit : p ++ x :: r = (p ++ [x]) ++ r := by simp
    rw [List.map_cons, prevIn_middle h, hsplit, ih (p ++ [x]) (hsplit ▸ h), List.getLast?_concat,
      List.map_cons, List.dropLast_cons_cons]

theorem map_prevIn {l : List α} (h : l.Nodup) :
    l.map (prevIn l) = (none :: l.map some).dropLast :=
  map_prevIn_suffix l [] h

/-- Along a list of distinct elements, each element's successor is the element listed after
it, and the last has none. -/
theorem map_nextIn_suffix (r : List α) : ∀ p : List α, (p ++ r).Nodup →
    r.map (nextIn (p ++ r)) = (r.map some ++ [none]).tail := by
  induction r with
  | nil => intro p _; rfl
  | cons x r ih =>
    intro p h
    have hsplit : p ++ x :: r = (p ++ [x]) ++ r := by simp
    rw [List.map_cons, nextIn_middle h, hsplit, ih (p ++ [x]) (hsplit ▸ h)]
    cases r <;> rfl

theorem map_nextIn {l : List α} (h : l.Nodup) :
    l.map (nextIn l) = (l.map some ++ [none]).tail :=
  map_nextIn_suffix l [] h

end RecencyMap
