import RecencyMap.Arena
import RecencyMap.Proofs.Neighbours

/-!
# The links of an arena

An arena keeps its recency order in the cells themselves: the head and the tail name the two
ends, and every live cell names its neighbours. This file states, for each primitive that
edits cells, exactly what every cell looks like afterwards, and from that proves the two
splices the list operations are built of:

* `Threads.unlink`: taking a live cell out of the order it threads leaves the rest threaded;
* `Threads.linkHead`: linking a detached live cell in front threads the longer order.

`Threads a order` says that `order` is the list the head, the tail and the links of `a` run
through, with `nextIn` and `prevIn` as the links every cell of it must hold. `FreeThreads a l`
says the same of the free chain: from `free`, the vacant cells of `l` link to one another in
turn. Relinking live cells never touches a vacant one, so it keeps the free chain.
-/

namespace RecencyMap

/-- A cell's entry and stamp, leaving out its links. -/
def Node.payload {κ ν : Type} (n : Node κ ν) : κ × ν × Nat := (n.key, n.value, n.seq)

/-- A cell's links, towards the head and towards the tail. -/
def Node.links {κ ν : Type} (n : Node κ ν) : Option Slot × Option Slot := (n.prev, n.next)

namespace Arena

variable {κ ν : Type}

/-! ## What each cell primitive does to the cells -/

theorem node?_modifyNode (a : Arena κ ν) (s t : Slot) (f : Node κ ν → Node κ ν) :
    (a.modifyNode s f).node? t = if s = t then (a.node? t).map f else a.node? t := by
  unfold modifyNode node?
  rw [Array.getElem?_modify]
  split
  · cases a.cells[t]? with
    | none => rfl
    | some c => cases c <;> rfl
  · rfl

@[simp] theorem modifyNode_head (a : Arena κ ν) (s : Slot) (f : Node κ ν → Node κ ν) :
    (a.modifyNode s f).head = a.head := rfl

@[simp] theorem modifyNode_tail (a : Arena κ ν) (s : Slot) (f : Node κ ν → Node κ ν) :
    (a.modifyNode s f).tail = a.tail := rfl

@[simp] theorem modifyNode_free (a : Arena κ ν) (s : Slot) (f : Node κ ν → Node κ ν) :
    (a.modifyNode s f).free = a.free := rfl

@[simp] theorem modifyNode_size (a : Arena κ ν) (s : Slot) (f : Node κ ν → Node κ ν) :
    (a.modifyNode s f).size = a.size := rfl

@[simp] theorem modifyNode_capacity (a : Arena κ ν) (s : Slot) (f : Node κ ν → Node κ ν) :
    (a.modifyNode s f).capacity = a.capacity := rfl

@[simp] theorem modifyNode_generation (a : Arena κ ν) (s : Slot) (f : Node κ ν → Node κ ν) :
    (a.modifyNode s f).generation = a.generation := rfl

@[simp] theorem modifyNode_cells_size (a : Arena κ ν) (s : Slot) (f : Node κ ν → Node κ ν) :
    (a.modifyNode s f).cells.size = a.cells.size := Array.size_modify

/-- Linking `s` in front: `s` points at the old head, and the old head points back at `s`. -/
theorem linkHead_node? (a : Arena κ ν) (s t : Slot) :
    (a.linkHead s).node? t = (a.node? t).map fun m =>
      let m := if s = t then { m with prev := none, next := a.head } else m
      if a.head = some t then { m with prev := some s } else m := by
  unfold linkHead
  cases hh : a.head with
  | none =>
    show (a.modifyNode s _).node? t = _
    rw [node?_modifyNode]
    by_cases hst : s = t <;> simp [hst]
  | some h =>
    show ((a.modifyNode s _).setPrev h (some s)).node? t = _
    rw [setPrev, node?_modifyNode, node?_modifyNode]
    by_cases hst : s = t <;> by_cases hht : h = t <;> simp [hst, hht, Function.comp_def]

@[simp] theorem linkHead_head (a : Arena κ ν) (s : Slot) : (a.linkHead s).head = some s := rfl

theorem linkHead_tail (a : Arena κ ν) (s : Slot) :
    (a.linkHead s).tail = if a.head = none then some s else a.tail := by
  unfold linkHead
  cases a.head <;> rfl

@[simp] theorem linkHead_free (a : Arena κ ν) (s : Slot) : (a.linkHead s).free = a.free := by
  unfold linkHead
  cases a.head <;> rfl

@[simp] theorem linkHead_size (a : Arena κ ν) (s : Slot) : (a.linkHead s).size = a.size := by
  unfold linkHead
  cases a.head <;> rfl

@[simp] theorem linkHead_capacity (a : Arena κ ν) (s : Slot) :
    (a.linkHead s).capacity = a.capacity := by
  unfold linkHead
  cases a.head <;> rfl

@[simp] theorem linkHead_generation (a : Arena κ ν) (s : Slot) :
    (a.linkHead s).generation = a.generation := by
  unfold linkHead
  cases a.head <;> rfl

@[simp] theorem linkHead_cells_size (a : Arena κ ν) (s : Slot) :
    (a.linkHead s).cells.size = a.cells.size := by
  unfold linkHead
  cases a.head <;> simp [setPrev]

/-- Unlinking `s`, whose links were those of `n`: its two neighbours are joined and `s` keeps
no links. -/
theorem unlink_node? (a : Arena κ ν) (s : Slot) (n : Node κ ν) (t : Slot) :
    (a.unlink s n).node? t = (a.node? t).map fun m =>
      let m := if n.prev = some t then { m with next := n.next } else m
      let m := if n.next = some t then { m with prev := n.prev } else m
      if s = t then { m with prev := none, next := none } else m := by
  unfold unlink
  cases hp : n.prev with
  | none =>
    cases hq : n.next with
    | none =>
      show (a.modifyNode s _).node? t = _
      rw [node?_modifyNode]
      by_cases hst : s = t <;> simp [hst]
    | some q =>
      show (({ a with head := some q }.setPrev q none).modifyNode s _).node? t = _
      rw [node?_modifyNode, setPrev, node?_modifyNode]
      by_cases hst : s = t <;> by_cases hqt : q = t <;> simp [hst, hqt, Function.comp_def] <;> rfl
  | some p =>
    cases hq : n.next with
    | none =>
      show (({ (a.setNext p none) with tail := some p }).modifyNode s _).node? t = _
      rw [node?_modifyNode]
      change (if s = t then ((a.setNext p none).node? t).map _
        else (a.setNext p none).node? t) = _
      rw [setNext, node?_modifyNode]
      by_cases hst : s = t <;> by_cases hpt : p = t <;> simp [hst, hpt, Function.comp_def]
    | some q =>
      show (((a.setNext p (some q)).setPrev q (some p)).modifyNode s _).node? t = _
      rw [node?_modifyNode, setPrev, node?_modifyNode, setNext, node?_modifyNode]
      by_cases hst : s = t <;> by_cases hpt : p = t <;> by_cases hqt : q = t <;>
        simp [hst, hpt, hqt, Function.comp_def]

theorem unlink_head (a : Arena κ ν) (s : Slot) (n : Node κ ν) :
    (a.unlink s n).head = if n.prev = none then n.next else a.head := by
  unfold unlink
  cases n.prev <;> cases n.next <;> rfl

theorem unlink_tail (a : Arena κ ν) (s : Slot) (n : Node κ ν) :
    (a.unlink s n).tail = if n.next = none then n.prev else a.tail := by
  unfold unlink
  cases n.prev <;> cases n.next <;> rfl

@[simp] theorem unlink_free (a : Arena κ ν) (s : Slot) (n : Node κ ν) :
    (a.unlink s n).free = a.free := by
  unfold unlink
  cases n.prev <;> cases n.next <;> rfl

@[simp] theorem unlink_size (a : Arena κ ν) (s : Slot) (n : Node κ ν) :
    (a.unlink s n).size = a.size := by
  unfold unlink
  cases n.prev <;> cases n.next <;> rfl

@[simp] theorem unlink_capacity (a : Arena κ ν) (s : Slot) (n : Node κ ν) :
    (a.unlink s n).capacity = a.capacity := by
  unfold unlink
  cases n.prev <;> cases n.next <;> rfl

@[simp] theorem unlink_generation (a : Arena κ ν) (s : Slot) (n : Node κ ν) :
    (a.unlink s n).generation = a.generation := by
  unfold unlink
  cases n.prev <;> cases n.next <;> rfl

@[simp] theorem unlink_cells_size (a : Arena κ ν) (s : Slot) (n : Node κ ν) :
    (a.unlink s n).cells.size = a.cells.size := by
  unfold unlink
  cases n.prev <;> cases n.next <;> simp [setPrev, setNext]

/-- Relinking never touches what a cell holds. -/
theorem linkHead_payload (a : Arena κ ν) (s t : Slot) :
    ((a.linkHead s).node? t).map Node.payload = (a.node? t).map Node.payload := by
  rw [linkHead_node?, Option.map_map]
  congr 1
  funext m
  by_cases hst : s = t <;> by_cases hh : a.head = some t <;> simp [hst, hh, Node.payload]

theorem unlink_payload (a : Arena κ ν) (s : Slot) (n : Node κ ν) (t : Slot) :
    ((a.unlink s n).node? t).map Node.payload = (a.node? t).map Node.payload := by
  rw [unlink_node?, Option.map_map]
  congr 1
  funext m
  by_cases hp : n.prev = some t <;> by_cases hq : n.next = some t <;> by_cases hst : s = t <;>
    simp [hp, hq, hst, Node.payload]

/-- A cell is live after relinking exactly when it was live before. -/
theorem isSome_node?_of_payload {a b : Arena κ ν}
    (h : ∀ t, (b.node? t).map Node.payload = (a.node? t).map Node.payload) (t : Slot) :
    (b.node? t).isSome = (a.node? t).isSome := by
  rw [← Option.isSome_map (f := Node.payload), h t, Option.isSome_map]


/-- A cell after unlinking `s`: it holds what it held, and its links are those of the list
with `s` left out. -/
theorem unlink_node?_eq_some {a : Arena κ ν} {s : Slot} {n : Node κ ν} {t : Slot}
    {m' : Node κ ν} (h : (a.unlink s n).node? t = some m') :
    ∃ m, a.node? t = some m ∧ m'.payload = m.payload ∧
      m'.next = (if s = t then none else if n.prev = some t then n.next else m.next) ∧
      m'.prev = (if s = t then none else if n.next = some t then n.prev else m.prev) := by
  rw [unlink_node?] at h
  obtain ⟨m, hm, rfl⟩ := Option.map_eq_some_iff.mp h
  refine ⟨m, hm, ?_, ?_, ?_⟩ <;> simp only [] <;> split_ifs <;> simp [Node.payload]

/-- A cell after linking `s` in front: it holds what it held; `s` points at the old head and
the old head points back at `s`. -/
theorem linkHead_node?_eq_some {a : Arena κ ν} {s t : Slot} {m' : Node κ ν}
    (h : (a.linkHead s).node? t = some m') :
    ∃ m, a.node? t = some m ∧ m'.payload = m.payload ∧
      m'.next = (if s = t then a.head else m.next) ∧
      m'.prev = (if a.head = some t then some s else if s = t then none else m.prev) := by
  rw [linkHead_node?] at h
  obtain ⟨m, hm, rfl⟩ := Option.map_eq_some_iff.mp h
  refine ⟨m, hm, ?_, ?_, ?_⟩ <;> simp only [] <;> split_ifs <;> simp [Node.payload]

/-! ## Orders threaded by the links -/

/-- `order` is the list of live cells that the head, the tail and the links of `a` run
through, most recent first: every cell of it points at its neighbours in it. -/
structure Threads (a : Arena κ ν) (order : List Slot) : Prop where
  nodup : order.Nodup
  live : ∀ s ∈ order, (a.node? s).isSome
  next_eq : ∀ s ∈ order, ∀ n, a.node? s = some n → n.next = nextIn order s
  prev_eq : ∀ s ∈ order, ∀ n, a.node? s = some n → n.prev = prevIn order s
  head_eq : a.head = order.head?
  tail_eq : a.tail = order.getLast?

/-- Taking a cell out of the order it threads, given the links it has there, leaves the rest
of the order threaded. -/
theorem Threads.unlink {a : Arena κ ν} {order : List Slot} (h : a.Threads order) {s : Slot}
    (hs : s ∈ order) {n : Node κ ν} (hprev : n.prev = prevIn order s)
    (hnext : n.next = nextIn order s) :
    (a.unlink s n).Threads (order.erase s) where
  nodup := h.nodup.erase s
  live t ht := by
    rw [isSome_node?_of_payload (unlink_payload a s n)]
    exact h.live t (List.mem_of_mem_erase ht)
  next_eq t ht m' hm' := by
    obtain ⟨hts, ht⟩ := (h.nodup.mem_erase_iff).mp ht
    obtain ⟨m, hm, -, hm'next, -⟩ := unlink_node?_eq_some hm'
    -- the cell before `s` now points past it; no other successor changes
    have hjoin : n.prev = some t ↔ m.next = some s := by
      rw [hprev, h.next_eq t ht m hm]
      exact prevIn_eq_some_iff h.nodup
    rw [hm'next, if_neg (Ne.symm hts), nextIn_erase h.nodup hts, ← hnext,
      ← h.next_eq t ht m hm]
    exact if_congr hjoin rfl rfl
  prev_eq t ht m' hm' := by
    obtain ⟨hts, ht⟩ := (h.nodup.mem_erase_iff).mp ht
    obtain ⟨m, hm, -, -, hm'prev⟩ := unlink_node?_eq_some hm'
    -- the cell after `s` now points back past it; no other predecessor changes
    have hjoin : n.next = some t ↔ m.prev = some s := by
      rw [hnext, h.prev_eq t ht m hm]
      exact (prevIn_eq_some_iff h.nodup).symm
    rw [hm'prev, if_neg (Ne.symm hts), prevIn_erase h.nodup hts, ← hprev,
      ← h.prev_eq t ht m hm]
    exact if_congr hjoin rfl rfl
  head_eq := by
    rw [unlink_head, head?_erase_of_mem h.nodup hs, hprev, hnext, h.head_eq]
  tail_eq := by
    rw [unlink_tail, getLast?_erase_of_mem h.nodup hs, hprev, hnext, h.tail_eq]

/-- Linking in front a live cell that the order does not hold threads the longer order. -/
theorem Threads.linkHead {a : Arena κ ν} {order : List Slot} (h : a.Threads order) {s : Slot}
    (hs : s ∉ order) (hlive : (a.node? s).isSome) :
    (a.linkHead s).Threads (s :: order) where
  nodup := List.nodup_cons.mpr ⟨hs, h.nodup⟩
  live t ht := by
    rw [isSome_node?_of_payload (linkHead_payload a s)]
    rcases List.mem_cons.mp ht with rfl | ht
    · exact hlive
    · exact h.live t ht
  next_eq t ht m' hm' := by
    obtain ⟨m, hm, -, hnext, -⟩ := linkHead_node?_eq_some hm'
    rw [hnext, nextIn_cons, h.head_eq]
    by_cases hst : s = t
    · rw [if_pos hst, if_pos hst]
    · rw [if_neg hst, if_neg hst]
      exact h.next_eq t ((List.mem_cons.mp ht).resolve_left (Ne.symm hst)) m hm
  prev_eq t ht m' hm' := by
    obtain ⟨m, hm, -, -, hprev⟩ := linkHead_node?_eq_some hm'
    rw [hprev, h.head_eq]
    rcases List.mem_cons.mp ht with rfl | ht
    · -- the old head is another cell, so the new head has nothing before it
      have hh : order.head? ≠ some t := fun e => hs (List.mem_of_mem_head? e)
      rw [if_neg hh, if_pos rfl, prevIn_cons_self hs]
    · have hst : s ≠ t := fun e => hs (e ▸ ht)
      rw [prevIn_cons_of_mem h.nodup ht, if_neg hst, ← h.prev_eq t ht m hm]
  head_eq := rfl
  tail_eq := by
    rw [linkHead_tail, h.head_eq, h.tail_eq]
    cases order with
    | nil => rfl
    | cons t order => simp [List.getLast?_cons]

/-- An order stays threaded through any edit that keeps the ends and the links of its
cells. -/
theorem Threads.of_links {a b : Arena κ ν} {order : List Slot} (h : a.Threads order)
    (hcell : ∀ t ∈ order, (b.node? t).map Node.links = (a.node? t).map Node.links)
    (hhead : b.head = a.head) (htail : b.tail = a.tail) : b.Threads order where
  nodup := h.nodup
  live t ht := by
    rw [← Option.isSome_map (f := Node.links), hcell t ht, Option.isSome_map]
    exact h.live t ht
  next_eq t ht m' hm' := by
    have hlinks := hcell t ht
    rw [hm', Option.map_some] at hlinks
    obtain ⟨m, hm, hmm⟩ := Option.map_eq_some_iff.mp hlinks.symm
    rw [← h.next_eq t ht m hm]
    exact (congrArg Prod.snd hmm).symm
  prev_eq t ht m' hm' := by
    have hlinks := hcell t ht
    rw [hm', Option.map_some] at hlinks
    obtain ⟨m, hm, hmm⟩ := Option.map_eq_some_iff.mp hlinks.symm
    rw [← h.prev_eq t ht m hm]
    exact (congrArg Prod.fst hmm).symm
  head_eq := hhead.trans h.head_eq
  tail_eq := htail.trans h.tail_eq

/-! ## The free chain -/

/-- The vacant slots reached from `s` along the free chain, at most `fuel` of them. -/
def freeFrom (a : Arena κ ν) : Nat → Option Slot → List Slot
  | 0, _ => []
  | _, none => []
  | fuel + 1, some s =>
    match a.cells[s]? with
    | some (.vacant next) => s :: a.freeFrom fuel next
    | _ => []

/-- The free chain from its top, the most recently freed slot first. -/
def freeList (a : Arena κ ν) : List Slot :=
  a.freeFrom a.cells.size a.free

/-- The free chain threads `l`: its top is the first slot of `l`, and every cell of `l` is
vacant and links to the slot after it in `l`, the last to nothing. -/
structure FreeThreads (a : Arena κ ν) (l : List Slot) : Prop where
  nodup : l.Nodup
  head_eq : a.free = l.head?
  cell_eq : ∀ s ∈ l, a.cells[s]? = some (.vacant (nextIn l s))

section FreeChain

variable {a b : Arena κ ν} {l : List Slot}

theorem FreeThreads.lt_size (h : a.FreeThreads l) {s : Slot} (hs : s ∈ l) :
    s < a.cells.size := by
  have hc := h.cell_eq s hs
  by_contra hlt
  rw [Array.getElem?_eq_none (Nat.le_of_not_lt hlt)] at hc
  cases hc

theorem FreeThreads.node?_eq_none (h : a.FreeThreads l) {s : Slot} (hs : s ∈ l) :
    a.node? s = none := by
  simp [node?, h.cell_eq s hs, Cell.node?]

/-- The chain holds distinct cells of the array, so no more of them than the array has. -/
theorem FreeThreads.length_le (h : a.FreeThreads l) : l.length ≤ a.cells.size := by
  have hsub : l ⊆ List.range a.cells.size := fun s hs => List.mem_range.mpr (h.lt_size hs)
  simpa using (h.nodup.subperm hsub).length_le

/-- Following the free chain from any slot of `l` walks the rest of `l` and stops there,
however much fuel is left. -/
theorem FreeThreads.freeFrom_suffix (h : a.FreeThreads l) (r : List Slot) :
    ∀ (p : List Slot) (fuel : Nat), l = p ++ r → r.length ≤ fuel →
      a.freeFrom fuel r.head? = r := by
  induction r with
  | nil =>
    intro p fuel _ _
    cases fuel <;> rfl
  | cons x r ih =>
    intro p fuel hsplit hlen
    obtain ⟨f, rfl⟩ : ∃ f, fuel = f + 1 := ⟨fuel - 1, by simp at hlen; omega⟩
    have hx : x ∈ l := by simp [hsplit]
    have hnext : nextIn l x = r.head? := by
      rw [hsplit]
      exact nextIn_middle (hsplit ▸ h.nodup)
    have hrest := ih (p ++ [x]) f (by simp [hsplit]) (by simpa using hlen)
    simp only [freeFrom, List.head?_cons, h.cell_eq x hx, hnext, hrest]

theorem FreeThreads.freeList_eq (h : a.FreeThreads l) : a.freeList = l := by
  unfold freeList
  rw [h.head_eq]
  exact h.freeFrom_suffix l [] _ rfl h.length_le

/-- The free chain is read off `free` and the cells alone. -/
theorem FreeThreads.of_cells (h : a.FreeThreads l) (hfree : b.free = a.free)
    (hcells : ∀ t ∈ l, b.cells[t]? = a.cells[t]?) : b.FreeThreads l where
  nodup := h.nodup
  head_eq := hfree.trans h.head_eq
  cell_eq t ht := (hcells t ht).trans (h.cell_eq t ht)

/-- Editing a live cell leaves every vacant cell as it was. -/
theorem cells_modifyNode_of_vacant {s t : Slot} {f : Node κ ν → Node κ ν} {x : Option Slot}
    (ht : a.cells[t]? = some (.vacant x)) : (a.modifyNode s f).cells[t]? = some (.vacant x) := by
  unfold modifyNode
  rw [Array.getElem?_modify, ht]
  split <;> rfl

theorem FreeThreads.modifyNode (h : a.FreeThreads l) (s : Slot) (f : Node κ ν → Node κ ν) :
    (a.modifyNode s f).FreeThreads l :=
  h.of_cells rfl fun t ht =>
    (cells_modifyNode_of_vacant (h.cell_eq t ht)).trans (h.cell_eq t ht).symm

theorem FreeThreads.linkHead (h : a.FreeThreads l) (s : Slot) : (a.linkHead s).FreeThreads l := by
  unfold Arena.linkHead
  cases a.head with
  | none => exact (h.modifyNode s _).of_cells rfl fun _ _ => rfl
  | some t => exact ((h.modifyNode s _).modifyNode t _).of_cells rfl fun _ _ => rfl

theorem FreeThreads.unlink (h : a.FreeThreads l) (s : Slot) (n : Node κ ν) :
    (a.unlink s n).FreeThreads l := by
  unfold Arena.unlink
  cases n.prev <;> cases n.next
  · exact (h.modifyNode s _).of_cells rfl fun _ _ => rfl
  · exact ((h.modifyNode _ _).modifyNode s _).of_cells rfl fun _ _ => rfl
  · exact ((h.modifyNode _ _).modifyNode s _).of_cells rfl fun _ _ => rfl
  · exact (((h.modifyNode _ _).modifyNode _ _).modifyNode s _).of_cells rfl fun _ _ => rfl

end FreeChain

end Arena

end RecencyMap
