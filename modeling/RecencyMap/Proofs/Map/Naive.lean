import RecencyMap.Proofs.Map.Consistent

/-!
# The naive recency map

The reference a recency map answers to: a list of key-value pairs, most recently used first.
Keys are compared by an equivalence the model is given, the one the map's index uses (`==` for
a hash index, a comparison of `.eq` for a search tree); the pairs of a map have keys no two of
which are equivalent, and there are never more of them than the capacity (`Naive.Wf`).

Each operation of the model is a few lines on lists. The second half of this file shows that
each operation of a consistent map answers as the model's does on the map's pairs and leaves a
map whose pairs are the model's.
-/

namespace RecencyMap

namespace Naive

variable {κ ν : Type} (eqv : κ → κ → Bool)

/-- The pair whose key is equivalent to `k`. -/
def find? (ps : List (κ × ν)) (k : κ) : Option (κ × ν) :=
  ps.find? fun p => eqv p.1 k

/-- The pairs whose keys are not equivalent to `k`. -/
def drop (ps : List (κ × ν)) (k : κ) : List (κ × ν) :=
  ps.filter fun p => !eqv p.1 k

/-- Store `v` under `k` as the most recent pair. A present key keeps its stored spelling, takes
the new value and moves to the front; a new key goes in front, and when the list is full the
last pair makes room for it. -/
def push (cap : Nat) (ps : List (κ × ν)) (k : κ) (v : ν) : Pushed κ ν × List (κ × ν) :=
  match find? eqv ps k with
  | some (stored, old) => (.replaced k old, (stored, v) :: drop eqv ps k)
  | none =>
    if ps.length < cap then (.fresh, (k, v) :: ps)
    else
      match ps.getLast? with
      | some (lk, lv) => (.evicted lk lv, (k, v) :: ps.dropLast)
      | none => (.fresh, [(k, v)])

/-- The value of `k`, moving its pair to the front. -/
def get (ps : List (κ × ν)) (k : κ) : Option ν × List (κ × ν) :=
  match find? eqv ps k with
  | some (stored, v) => (some v, (stored, v) :: drop eqv ps k)
  | none => (none, ps)

/-- Take out the pair of `k`. -/
def take (ps : List (κ × ν)) (k : κ) : Option (κ × ν) × List (κ × ν) :=
  (find? eqv ps k, drop eqv ps k)

/-- Push each pair in order. -/
def extend (cap : Nat) (ps pairs : List (κ × ν)) : List (κ × ν) :=
  pairs.foldl (fun ps p => (push eqv cap ps p.1 p.2).2) ps

/-- Take out the first `limit` pairs, or all of them. -/
def drain (ps : List (κ × ν)) (limit : Option Nat) : List (κ × ν) × List (κ × ν) :=
  (ps.take (limit.getD ps.length), ps.drop (limit.getD ps.length))

/-- What the pairs of a map keep: no two keys are equivalent, and there are at most `cap`. -/
structure Wf (cap : Nat) (ps : List (κ × ν)) : Prop where
  distinct : ps.Pairwise fun p q => eqv p.1 q.1 = false
  length_le : ps.length ≤ cap

end Naive

/-! ## The pairs of described entries -/

namespace SomeIndex

variable {κ ν : Type} [BEq κ] [Hashable κ] {ix : SomeIndex κ} {es : List (Recency.Entry κ ν)}

/-- The pair the model finds for `k` is that of the one entry whose key is taken for `k`. -/
theorem Describes.naive_find?_of_eqv (h : ix.Describes es) {e : Recency.Entry κ ν}
    (he : e ∈ es) {k : κ} (hk : ix.eqv e.key k = true) :
    Naive.find? ix.eqv (es.map Recency.Entry.pair) k = some e.pair := by
  unfold Naive.find?
  rw [List.find?_map]
  show (es.find? fun x => ix.eqv x.key k).map Recency.Entry.pair = some e.pair
  obtain ⟨x, hx⟩ := Option.isSome_iff_exists.mp
    (List.find?_isSome.mpr ⟨e, he, hk⟩ : (es.find? fun x => ix.eqv x.key k).isSome)
  -- the first entry whose key is taken for `k` is `e`, since no other is
  have hxk : ix.eqv x.key k = true := by simpa using List.find?_some hx
  have hxe : x = e := h.eq_of_eqv (List.mem_of_find?_eq_some hx) he
    (eqv_trans h.lawful hxk (eqv_symm h.lawful hk))
  rw [hx, hxe, Option.map_some]

theorem Describes.naive_find?_none (h : ix.Describes es) {k : κ}
    (hk : KeyIndex.find? ix k = none) :
    Naive.find? ix.eqv (es.map Recency.Entry.pair) k = none := by
  have hall := (h.find?_eq_none_iff k).mp hk
  unfold Naive.find?
  rw [List.find?_eq_none]
  intro p hp
  obtain ⟨x, hx, rfl⟩ := List.mem_map.mp hp
  simp [Recency.Entry.pair, hall x hx]

/-- The pairs the model keeps when it drops `k` are those of the entries other than `k`'s. -/
theorem Describes.naive_drop_of_eqv (h : ix.Describes es) {e : Recency.Entry κ ν}
    (he : e ∈ es) {k : κ} (hk : ix.eqv e.key k = true) :
    Naive.drop ix.eqv (es.map Recency.Entry.pair) k =
      (es.filter fun x => x.slot != e.slot).map Recency.Entry.pair := by
  unfold Naive.drop
  rw [List.filter_map]
  congr 1
  apply List.filter_congr
  intro x hx
  -- an entry is dropped exactly when it is `e`, the one entry whose key is taken for `k`
  by_cases hxe : x = e
  · subst hxe
    simp [Recency.Entry.pair, hk]
  · have hxs : x.slot ≠ e.slot := fun hs => hxe (List.inj_on_of_nodup_map h.nodup hx he hs)
    have hxk : ix.eqv x.key k = false := by
      by_contra hxk
      exact hxe (h.eq_of_eqv hx he
        (eqv_trans h.lawful (by simpa using hxk) (eqv_symm h.lawful hk)))
    simp [Recency.Entry.pair, hxk, hxs]

theorem Describes.naive_drop_none (h : ix.Describes es) {k : κ}
    (hk : KeyIndex.find? ix k = none) :
    Naive.drop ix.eqv (es.map Recency.Entry.pair) k = es.map Recency.Entry.pair := by
  have hall := (h.find?_eq_none_iff k).mp hk
  refine List.filter_eq_self.mpr fun p hp => ?_
  obtain ⟨x, hx, rfl⟩ := List.mem_map.mp hp
  simp [Recency.Entry.pair, hall x hx]

/-- Described entries within the capacity have pairs the model accepts. -/
theorem Describes.naive_wf (h : ix.Describes es) {c : Nat} (hlen : es.length ≤ c) :
    Naive.Wf ix.eqv c (es.map Recency.Entry.pair) where
  distinct := by
    rw [List.pairwise_map]
    have hslots : es.Pairwise fun x y => x.slot ≠ y.slot := List.pairwise_map.mp h.nodup
    -- entries at distinct slots are distinct, so their keys are not taken for each other
    refine hslots.imp_of_mem fun hx hy hxy => ?_
    by_contra hk
    exact hxy (congrArg Recency.Entry.slot
      (h.eq_of_eqv hx hy (by simpa [Recency.Entry.pair] using hk)))
  length_le := by
    rw [List.length_map]
    exact hlen

end SomeIndex

/-! ## Each operation of a consistent map as the model's -/

namespace Lru

variable {κ ν : Type} [BEq κ] [Hashable κ] {m : Lru (SomeIndex κ) κ ν}

theorem Consistent.naive_wf (hc : m.Consistent) : Naive.Wf m.index.eqv m.capacity m.toList := by
  rw [toList_eq]
  exact hc.describes.naive_wf hc.length_le

/-- What a consistent map and the model on its pairs see of a key: either the one entry whose
key is taken for it, which both find, or nothing in either. -/
theorem Consistent.lookup (hc : m.Consistent) (k : κ) :
    (∃ e ∈ m.arena.view.entries, m.index.eqv e.key k = true ∧ m.find? k = some e.slot ∧
        Naive.find? m.index.eqv (m.arena.view.entries.map Recency.Entry.pair) k = some e.pair ∧
        Naive.drop m.index.eqv (m.arena.view.entries.map Recency.Entry.pair) k =
          (m.arena.view.entries.filter fun x => x.slot != e.slot).map Recency.Entry.pair) ∨
      (m.find? k = none ∧
        Naive.find? m.index.eqv (m.arena.view.entries.map Recency.Entry.pair) k = none ∧
        Naive.drop m.index.eqv (m.arena.view.entries.map Recency.Entry.pair) k =
          m.arena.view.entries.map Recency.Entry.pair) := by
  cases hfind : m.find? k with
  | some s =>
    obtain ⟨e, he, rfl, hk⟩ := hc.find?_some hfind
    exact Or.inl ⟨e, he, hk, rfl, hc.describes.naive_find?_of_eqv he hk,
      hc.describes.naive_drop_of_eqv he hk⟩
  | none =>
    exact Or.inr ⟨rfl, hc.describes.naive_find?_none hfind, hc.describes.naive_drop_none hfind⟩

/-! ### Reads -/

theorem Consistent.size_naive (hc : m.Consistent) : m.size = m.toList.length := by
  rw [hc.size_eq, toList_eq, List.length_map]

theorem keys_naive (m : Lru (SomeIndex κ) κ ν) : m.keys = m.toList.map Prod.fst := by
  rw [keys_eq, toList_eq, List.map_map]
  rfl

theorem Consistent.peek_naive (hc : m.Consistent) (k : κ) :
    m.peek k = .ok ((Naive.find? m.index.eqv m.toList k).map Prod.snd) := by
  rw [toList_eq]
  rcases hc.lookup k with ⟨e, he, hk, -, hn, -⟩ | ⟨hfind, hn, -⟩
  · rw [hc.peek_found he hk, hn]
    rfl
  · rw [peek_missing hfind, hn]
    rfl

theorem Consistent.contains_naive (hc : m.Consistent) (k : κ) :
    m.contains k = (Naive.find? m.index.eqv m.toList k).isSome := by
  rw [toList_eq]
  rcases hc.lookup k with ⟨e, -, -, hfind, hn, -⟩ | ⟨hfind, hn, -⟩
  · simp [contains, hfind, hn]
  · simp [contains, hfind, hn]

theorem Consistent.headKey_naive (hc : m.Consistent) :
    m.headKey = .ok (m.toList.head?.map Prod.fst) := by
  rw [hc.headKey_eq, toList_eq, List.head?_map, Option.map_map]
  rfl

theorem Consistent.tailKey_naive (hc : m.Consistent) :
    m.tailKey = .ok (m.toList.getLast?.map Prod.fst) := by
  rw [hc.tailKey_eq, toList_eq, List.getLast?_map, Option.map_map]
  rfl

/-! ### Changes -/

/-- A push answers as the model's push and leaves its pairs. -/
theorem Consistent.push_naive (hc : m.Consistent) (hcap : 0 < m.capacity) (k : κ) (v : ν) :
    ∃ m' sigs es,
      m.push k v = .ok ((Naive.push m.index.eqv m.capacity m.toList k v).1, m', sigs) ∧
      m'.Follows m es ∧
      es.map Recency.Entry.pair = (Naive.push m.index.eqv m.capacity m.toList k v).2 := by
  rw [toList_eq]
  rcases hc.lookup k with ⟨e, he, hk, -, hn, hd⟩ | ⟨hfind, hn, -⟩
  · -- a present key: its entry takes the value and moves to the front
    obtain ⟨m', sigs, hpush, hf⟩ := hc.push_found he hk v
    refine ⟨m', sigs, _, ?_, hf, ?_⟩
    · simp [hpush, Naive.push, hn, Recency.Entry.pair]
    · simp [Naive.push, hn, hd, Recency.Entry.pair]
  · by_cases hroom : m.arena.view.entries.length < m.capacity
    · obtain ⟨s, m', sigs, hpush, hf⟩ := hc.push_room hfind hroom v
      refine ⟨m', sigs, _, ?_, hf, ?_⟩
      · simp [hpush, Naive.push, hn, hroom]
      · simp [Naive.push, hn, hroom, Recency.Entry.pair]
    · -- a new key into a full map: the last entry makes room
      have hfull : m.arena.view.entries.length = m.capacity := by
        have hle := hc.length_le
        omega
      have hne : m.arena.view.entries ≠ [] := by
        intro hnil
        rw [hnil, List.length_nil] at hfull
        omega
      obtain ⟨el, hlast⟩ := Option.isSome_iff_exists.mp (List.getLast?_isSome.mpr hne)
      obtain ⟨m', sigs, hpush, hf⟩ := hc.push_full hfind hfull hlast v
      refine ⟨m', sigs, _, ?_, hf, ?_⟩
      · simp [hpush, Naive.push, hn, hroom, hlast, Recency.Entry.pair]
      · rw [Recency.filter_last hc.describes.nodup hlast]
        simp [Naive.push, hn, hroom, hlast, Recency.Entry.pair]

/-- A read that moves its entry answers as the model's and leaves its pairs. -/
theorem Consistent.get_naive (hc : m.Consistent) (k : κ) :
    ∃ m' sigs es, m.get k = .ok ((Naive.get m.index.eqv m.toList k).1, m', sigs) ∧
      m'.Follows m es ∧ es.map Recency.Entry.pair = (Naive.get m.index.eqv m.toList k).2 := by
  rw [toList_eq]
  rcases hc.lookup k with ⟨e, he, hk, -, hn, hd⟩ | ⟨hfind, hn, -⟩
  · obtain ⟨m', sigs, hget, hf⟩ := hc.get_found he hk
    refine ⟨m', sigs, _, ?_, hf, ?_⟩
    · simp [hget, Naive.get, hn, Recency.Entry.pair]
    · simp [Naive.get, hn, hd, Recency.Entry.pair]
  · refine ⟨m, [.miss], _, ?_, hc.follows_self, ?_⟩
    · simp [get_missing hfind, Naive.get, hn]
    · simp [Naive.get, hn]

/-- Extending pushes each pair as the model does. -/
theorem Consistent.extend_naive (hc : m.Consistent) (hcap : 0 < m.capacity)
    (pairs : List (κ × ν)) :
    ∃ m' sigs es, m.extend pairs = .ok ((), m', sigs) ∧ m'.Follows m es ∧
      es.map Recency.Entry.pair = Naive.extend m.index.eqv m.capacity m.toList pairs := by
  induction pairs generalizing m with
  | nil => exact ⟨m, [], _, rfl, hc.follows_self, (toList_eq m).symm⟩
  | cons p rest ih =>
    obtain ⟨m1, sigs1, es1, hpush, hf1, hes1⟩ := hc.push_naive hcap p.1 p.2
    have hcap1 : 0 < m1.capacity := by
      rw [hf1.capacity_eq]
      exact hcap
    obtain ⟨m2, sigs2, es2, hext, hf2, hes2⟩ := ih hf1.consistent hcap1
    refine ⟨m2, sigs1 ++ sigs2, es2, ?_, hf2.trans hf1, ?_⟩
    · simp [Lru.extend, hpush, hext, bind, Except.bind, pure, Except.pure]
    -- the rest is pushed onto the pairs the first push left
    · rw [hes2, hf1.capacity_eq, hf1.eqv_eq, toList_eq m1, hf1.entries_eq, hes1]
      rfl

/-- Draining takes out the model's first pairs. -/
theorem Consistent.drain_naive (hc : m.Consistent) (limit : Option Nat) :
    ∃ m' sigs es, m.drain limit = .ok ((Naive.drain m.toList limit).1, m', sigs) ∧
      m'.Follows m es ∧ es.map Recency.Entry.pair = (Naive.drain m.toList limit).2 := by
  obtain ⟨m', sigs, hdrain, hf⟩ := hc.drain limit
  refine ⟨m', sigs, _, ?_, hf, ?_⟩
  · rw [hdrain, Naive.drain, hc.size_naive, toList_eq, List.length_map, List.map_take]
  · rw [Naive.drain, hc.size_naive, toList_eq, List.length_map, List.map_drop]

end Lru

end RecencyMap
