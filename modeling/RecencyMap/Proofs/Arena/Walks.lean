import RecencyMap.Proofs.Arena.Shape

/-!
# Walks over a shaped arena

The forward walk from the head and the backward walk from the tail of an arena whose links
thread an order visit exactly that order, and the walk along the free chain visits the stack it
threads. The three walks `validate` makes run along the same lists and pass every check on the
way, so a shaped arena passes `validate`.
-/

namespace RecencyMap
namespace Arena

variable {κ ν : Type}

/-- The cells of the slots of `l`, in order, with the vacant ones left out. -/
def entriesOf (a : Arena κ ν) (l : List Slot) : List (Slot × Node κ ν) :=
  l.filterMap fun s => (a.node? s).map fun n => (s, n)

/-- The slots reached from `s` by following `prev`, at most `fuel` of them: the walk back
from the tail. -/
def chainBack (a : Arena κ ν) : Nat → Option Slot → List Slot
  | 0, _ => []
  | _, none => []
  | fuel + 1, some s =>
    match a.node? s with
    | none => []
    | some n => s :: a.chainBack fuel n.prev

/-- Reading the cells of live slots through `f` is reading the slots through `g`, when the two
agree on every live cell. -/
theorem map_entriesOf {β : Type} {a : Arena κ ν} {l : List Slot}
    (hlive : ∀ s ∈ l, (a.node? s).isSome) {f : Slot × Node κ ν → β} {g : Slot → β}
    (hfg : ∀ s ∈ l, ∀ n, a.node? s = some n → f (s, n) = g s) :
    (a.entriesOf l).map f = l.map g := by
  induction l with
  | nil => rfl
  | cons s l ih =>
    obtain ⟨n, hn⟩ := Option.isSome_iff_exists.mp (hlive s List.mem_cons_self)
    simp only [entriesOf, List.filterMap_cons, hn, Option.map_some, List.map_cons] at ih ⊢
    rw [hfg s List.mem_cons_self n hn, ih (fun t ht => hlive t (List.mem_cons_of_mem _ ht))
      (fun t ht => hfg t (List.mem_cons_of_mem _ ht))]

/-- The slots of the cells of live slots are those slots. -/
theorem map_fst_entriesOf {a : Arena κ ν} {l : List Slot}
    (hlive : ∀ s ∈ l, (a.node? s).isSome) : (a.entriesOf l).map Prod.fst = l := by
  exact (map_entriesOf hlive fun s _ n _ => (rfl : (s, n).1 = id s)).trans (List.map_id l)

/-- Following `next` from any slot of a threaded order walks the rest of the order and stops
there, however much fuel is left. -/
theorem Threads.chainFrom_suffix {a : Arena κ ν} {order : List Slot} (h : a.Threads order)
    (r : List Slot) : ∀ (p : List Slot) (fuel : Nat), order = p ++ r → r.length ≤ fuel →
      a.chainFrom fuel r.head? = a.entriesOf r := by
  induction r with
  | nil =>
    intro p fuel _ _
    cases fuel <;> rfl
  | cons x r ih =>
    intro p fuel hsplit hlen
    obtain ⟨f, rfl⟩ : ∃ f, fuel = f + 1 := ⟨fuel - 1, by simp at hlen; omega⟩
    have hx : x ∈ order := by simp [hsplit]
    obtain ⟨n, hn⟩ := Option.isSome_iff_exists.mp (h.live x hx)
    have hnext : n.next = r.head? := by
      rw [h.next_eq x hx n hn, hsplit]
      exact nextIn_middle (hsplit ▸ h.nodup)
    have hrest := ih (p ++ [x]) f (by simp [hsplit]) (by simpa using hlen)
    simp only [chainFrom, List.head?_cons, hn, hnext, hrest, entriesOf, List.filterMap_cons,
      Option.map_some]

/-- Following `prev` from any slot of a threaded order walks back to its front and stops
there. -/
theorem Threads.chainBack_suffix {a : Arena κ ν} {order : List Slot} (h : a.Threads order)
    (r : List Slot) : ∀ (p : List Slot) (fuel : Nat), order.reverse = p ++ r →
      r.length ≤ fuel → a.chainBack fuel r.head? = r := by
  induction r with
  | nil =>
    intro p fuel _ _
    cases fuel <;> rfl
  | cons x r ih =>
    intro p fuel hsplit hlen
    obtain ⟨f, rfl⟩ : ∃ f, fuel = f + 1 := ⟨fuel - 1, by simp at hlen; omega⟩
    have hx : x ∈ order := List.mem_reverse.mp (by simp [hsplit])
    obtain ⟨n, hn⟩ := Option.isSome_iff_exists.mp (h.live x hx)
    have hprev : n.prev = r.head? := by
      rw [h.prev_eq x hx n hn, prevIn, hsplit]
      exact nextIn_middle (hsplit ▸ List.nodup_reverse.mpr h.nodup)
    have hrest := ih (p ++ [x]) f (by simp [hsplit]) (by simpa using hlen)
    simp only [chainBack, List.head?_cons, hn, hprev, hrest]

/-- The walk from the head of a shaped arena visits its order. -/
theorem Shape.toList_eq {a : Arena κ ν} {order : List Slot} (h : a.Shape order) :
    a.toList = a.entriesOf order := by
  unfold toList
  rw [h.head_eq]
  exact h.chainFrom_suffix order [] _ rfl (by have := h.count; omega)

theorem Shape.toList_slots {a : Arena κ ν} {order : List Slot} (h : a.Shape order) :
    a.toList.map Prod.fst = order := by
  rw [h.toList_eq, map_fst_entriesOf h.live]

/-- Every step of the walk is a live cell. -/
theorem Shape.node?_of_mem_toList {a : Arena κ ν} {order : List Slot} (h : a.Shape order)
    {e : Slot × Node κ ν} (he : e ∈ a.toList) : a.node? e.1 = some e.2 := by
  rw [h.toList_eq] at he
  obtain ⟨s, -, hs⟩ := List.mem_filterMap.mp he
  obtain ⟨n, hn, rfl⟩ := Option.map_eq_some_iff.mp hs
  exact hn

/-- The walk from the head visits `size` cells. -/
theorem Shape.toList_length {a : Arena κ ν} {order : List Slot} (h : a.Shape order) :
    a.toList.length = a.size := by
  have hslots := congrArg List.length h.toList_slots
  rw [List.length_map] at hslots
  rw [hslots, h.size_eq]

/-- The walk from the head ends at the tail. -/
theorem Shape.toList_last {a : Arena κ ν} {order : List Slot} (h : a.Shape order) :
    a.toList.getLast?.map Prod.fst = a.tail := by
  rw [← List.getLast?_map, h.toList_slots, h.tail_eq]

/-- Head and tail are missing together. -/
theorem Shape.head_eq_none_iff {a : Arena κ ν} {order : List Slot} (h : a.Shape order) :
    a.head = none ↔ a.tail = none := by
  rw [h.head_eq, h.tail_eq, List.head?_eq_none_iff, List.getLast?_eq_none_iff]

/-- The walk back from the tail visits the order backwards, and stops there however much fuel
is left. -/
theorem Shape.chainBack_tail {a : Arena κ ν} {order : List Slot} (h : a.Shape order)
    {fuel : Nat} (hfuel : order.length ≤ fuel) : a.chainBack fuel a.tail = order.reverse := by
  rw [h.tail_eq, ← List.head?_reverse]
  exact h.chainBack_suffix order.reverse [] fuel rfl (by simpa using hfuel)

/-- Along the walk from the head, every cell points back at the slot visited before it. -/
theorem Shape.prev_along_toList {a : Arena κ ν} {order : List Slot} (h : a.Shape order) :
    a.toList.map (fun e => e.2.prev) = (none :: a.toList.map fun e => some e.1).dropLast := by
  have hprev : a.toList.map (fun e => e.2.prev) = order.map (prevIn order) := by
    rw [h.toList_eq]
    exact map_entriesOf h.live fun s hs n hn => h.prev_eq s hs n hn
  have hslots : a.toList.map (fun e => some e.1) = order.map some := by
    rw [← h.toList_slots, List.map_map]
    rfl
  rw [hprev, hslots, map_prevIn h.nodup]

/-- Along the walk from the head, stamps fall strictly. -/
theorem Shape.seq_along_toList {a : Arena κ ν} {order : List Slot} (h : a.Shape order) :
    (a.toList.map fun e => e.2.seq).Pairwise (· > ·) := by
  have hseq : a.toList.map (fun e => e.2.seq) = order.map a.stampAt := by
    rw [h.toList_eq]
    exact map_entriesOf h.live fun s _ n hn => by simp [stampAt, hn]
  rw [hseq, List.pairwise_map]
  exact h.stamps

/-- Along the walk from the head, every cell points on to the slot visited after it, and the
last points nowhere: the walk ends at the tail. -/
theorem Shape.next_along_toList {a : Arena κ ν} {order : List Slot} (h : a.Shape order) :
    a.toList.map (fun e => e.2.next) =
      ((a.toList.map fun e : Slot × Node κ ν => some e.1) ++ [none]).tail := by
  have hnext : a.toList.map (fun e => e.2.next) = order.map (nextIn order) := by
    rw [h.toList_eq]
    exact map_entriesOf h.live fun s hs n hn => h.next_eq s hs n hn
  have hslots : a.toList.map (fun e => some e.1) = order.map some := by
    rw [← h.toList_slots, List.map_map]
    rfl
  rw [hnext, hslots, map_nextIn h.nodup]

/-! ## The walks `validate` makes -/

/-- The cell of a live slot is that slot's node. -/
theorem cells_getElem?_of_node? {a : Arena κ ν} {s : Slot} {n : Node κ ν}
    (h : a.node? s = some n) : a.cells[s]? = some (.live n) := by
  unfold node? at h
  cases hc : a.cells[s]? with
  | none => simp [hc] at h
  | some c =>
    cases c with
    | live m => simp_all [Cell.node?]
    | vacant x => simp [hc, Cell.node?] at h

/-- From any slot of a shaped arena's order, the forward walk of `validate` passes every check
and visits the rest of the order, ending at its last slot. The slots already visited are `p`,
the last of them stamped `last`. -/
theorem Shape.walkForward_suffix {a : Arena κ ν} {order : List Slot} (h : a.Shape order)
    (r : List Slot) : ∀ (p : List Slot) (last : Nat), order = p ++ r →
      (∀ y ∈ p.getLast?, last = a.stampAt y) →
      a.walkForward r.head? p.getLast? last p.length = .ok (order.getLast?, order.length) := by
  induction r with
  | nil =>
    intro p last hsplit _
    simp [walkForward, hsplit]
  | cons x r ih =>
    intro p last hsplit hlast
    have hx : x ∈ order := by simp [hsplit]
    have hnd : (p ++ x :: r).Nodup := hsplit ▸ h.nodup
    obtain ⟨n, hn⟩ := Option.isSome_iff_exists.mp (h.live x hx)
    have hprev : n.prev = p.getLast? := by
      rw [h.prev_eq x hx n hn, hsplit]
      exact prevIn_middle hnd
    have hnext : n.next = r.head? := by
      rw [h.next_eq x hx n hn, hsplit]
      exact nextIn_middle hnd
    have hseq : a.stampAt x = n.seq := by simp [stampAt, hn]
    -- the stamp of `x` lies below that of the slot visited before it
    have hbelow : ¬(0 < p.length ∧ last ≤ n.seq) := by
      rintro ⟨hp, hle⟩
      obtain ⟨y, hy⟩ := Option.isSome_iff_exists.mp
        (List.getLast?_isSome.mpr (List.ne_nil_of_length_pos hp))
      have hfall : a.stampAt x < a.stampAt y := by
        have hpair := h.stamps
        rw [hsplit, List.pairwise_append] at hpair
        exact hpair.2.2 y (List.mem_of_getLast? hy) x List.mem_cons_self
      rw [hlast y hy] at hle
      omega
    have hgen : ¬a.generation < n.seq := Nat.not_lt.mpr (h.stamp_le x n hn)
    have hroom : ¬a.size < p.length + 1 := by
      rw [h.size_eq, hsplit]
      simp
    have hrest := ih (p ++ [x]) n.seq (by simp [hsplit]) (by simp [hseq])
    simp only [List.getLast?_append, List.getLast?_singleton, Option.some_or,
      List.length_append, List.length_singleton] at hrest
    simp only [List.head?_cons, walkForward, cells_getElem?_of_node? hn, hprev, bne_self_eq_false,
      Bool.false_eq_true, if_false, hbelow, hgen, hroom, hnext]
    exact hrest

/-- The backward walk of `validate`, from any slot of the reversed order, counts the rest of
it. The slots already counted are `p`. -/
theorem Shape.walkBack_suffix {a : Arena κ ν} {order : List Slot} (h : a.Shape order)
    (r : List Slot) : ∀ p : List Slot, order.reverse = p ++ r →
      a.walkBack r.head? p.length = .ok order.length := by
  induction r with
  | nil =>
    intro p hsplit
    have hlen := congrArg List.length hsplit
    simp only [List.length_reverse, List.append_nil] at hlen
    simp [walkBack, hlen]
  | cons x r ih =>
    intro p hsplit
    have hx : x ∈ order := List.mem_reverse.mp (by simp [hsplit])
    obtain ⟨n, hn⟩ := Option.isSome_iff_exists.mp (h.live x hx)
    have hprev : n.prev = r.head? := by
      rw [h.prev_eq x hx n hn, prevIn, hsplit]
      exact nextIn_middle (hsplit ▸ List.nodup_reverse.mpr h.nodup)
    have hroom : ¬a.size < p.length + 1 := by
      have hlen := congrArg List.length hsplit
      simp only [List.length_reverse, List.length_append, List.length_cons] at hlen
      rw [h.size_eq]
      omega
    have hrest := ih (p ++ [x]) (by simp [hsplit])
    simp only [List.length_append, List.length_singleton] at hrest
    simp only [List.head?_cons, walkBack, hroom, if_false, cells_getElem?_of_node? hn,
      Cell.prev, hprev]
    exact hrest

/-- The walk of `validate` along the free chain, from any slot of the stack the chain threads,
counts the rest of the stack. The slots already counted are `p`. -/
theorem FreeThreads.walkFree_suffix {a : Arena κ ν} {l : List Slot} (h : a.FreeThreads l)
    (r : List Slot) : ∀ p : List Slot, l = p ++ r → a.walkFree r.head? p.length = .ok l.length := by
  induction r with
  | nil =>
    intro p hsplit
    simp [walkFree, hsplit]
  | cons x r ih =>
    intro p hsplit
    have hx : x ∈ l := by simp [hsplit]
    have hnext : nextIn l x = r.head? := by
      rw [hsplit]
      exact nextIn_middle (hsplit ▸ h.nodup)
    have hroom : ¬a.cells.size < p.length + 1 := by
      have hlen := h.length_le
      rw [hsplit] at hlen
      simp at hlen
      omega
    have hrest := ih (p ++ [x]) (by simp [hsplit])
    simp only [List.length_append, List.length_singleton] at hrest
    simp only [List.head?_cons, walkFree, h.cell_eq x hx, hnext, hroom, if_false]
    exact hrest

/-- A shaped arena passes `validate`. -/
theorem Shape.validate_eq_ok {a : Arena κ ν} {order : List Slot} (h : a.Shape order) :
    a.validate = .ok () := by
  have hends : a.head.isNone = a.tail.isNone := by
    rw [Bool.eq_iff_iff, Option.isNone_iff_eq_none, Option.isNone_iff_eq_none]
    exact h.head_eq_none_iff
  have hforward : a.walkForward a.head none 0 0 = .ok (a.tail, a.size) := by
    have hwalk := h.walkForward_suffix order [] 0 rfl (by simp)
    rw [h.head_eq, h.tail_eq, h.size_eq]
    exact hwalk
  have hback : a.walkBack a.tail 0 = .ok a.size := by
    have hwalk := h.walkBack_suffix order.reverse [] rfl
    rw [h.tail_eq, ← List.head?_reverse, h.size_eq]
    exact hwalk
  have hfree : a.walkFree a.free 0 = .ok a.freeList.length := by
    have hwalk := h.free_threads.walkFree_suffix a.freeList [] rfl
    rw [h.free_threads.head_eq]
    exact hwalk
  have hcount : a.freeList.length + a.size = a.cells.size := by
    rw [h.size_eq]
    exact h.count
  unfold validate
  simp [Nat.not_lt.mpr h.cells_le, hends, hforward, hback, hfree, hcount, bind, Except.bind,
    pure, Except.pure]

end Arena

end RecencyMap
