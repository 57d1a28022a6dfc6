import RecencyMap.Proofs.Session.Positions

/-!
# Removing entries while walking

The package documentation shows how to remove entries while walking a map: a cursor starts at
the least recent entry; where the entry's key is one to drop, the cursor takes the entry and the
walk goes on from the cursor it hands back at the entry before it; elsewhere the cursor moves
one entry towards the most recent. The walk ends when a removal hands back no cursor or a move
finds no entry before. `Lru.prune` is that loop, with a bound on its rounds.

Main statement (`Lru.Consistent.prune_removes_matching`): on a consistent map with `n` entries,
the walk ends within `n` rounds, takes exactly the entries whose keys are to be dropped, from
the least recent to the most recent, and leaves the others in their order.

The proof follows the cursor from the tail to the head. When the cursor stands at position `i`,
the positions after `i` are handled: the map holds the entries before `i + 1` and, after them,
the later entries that are kept (`Recency.prunedFrom`). One round handles position `i`.
-/

namespace RecencyMap

namespace Lru

variable {ι κ ν : Type} [KeyIndex ι κ]

/-- The rounds of the walk from cursor `c`: take the entry and go on from the entry before it
when `drop` holds of its key, move towards the most recent entry otherwise. It answers with the
pairs it took, in the order it took them, and the map it leaves, or with nothing when `fuel`
rounds were not enough. -/
def pruneFrom (drop : κ → Bool) : Nat → Cursor → Lru ι κ ν →
    Except CursorFault (Option (List (κ × ν) × Lru ι κ ν))
  | 0, _, _ => .ok none
  | fuel + 1, c, m => do
    let k ← c.key m
    if drop k then
      let ((taken, heir), m, _) ← c.take m false
      match heir with
      | none => return some ([taken], m)
      | some c => return (← pruneFrom drop fuel c m).map fun r => (taken :: r.1, r.2)
    else
      let (moved, c) ← c.movePrev m
      if moved then pruneFrom drop fuel c m else return some ([], m)

/-- The walk from the least recent entry, in at most `fuel` rounds; an empty map has nothing to
walk. -/
def prune (drop : κ → Bool) (fuel : Nat) (m : Lru ι κ ν) :
    Except CursorFault (Option (List (κ × ν) × Lru ι κ ν)) :=
  match m.tailEntry? with
  | none => .ok (some ([], m))
  | some c => m.pruneFrom drop fuel c

end Lru

namespace Recency

variable {κ ν : Type}

/-- The entries once a walk has handled every position from `n` on: the entries before `n`,
then the later ones whose keys `drop` keeps. -/
def prunedFrom (drop : κ → Bool) (es : List (Recency.Entry κ ν)) (n : Nat) :
    List (Recency.Entry κ ν) :=
  es.take n ++ (es.drop n).filter fun e => !drop e.key

variable {drop : κ → Bool} {es : List (Recency.Entry κ ν)} {i : Nat} {e : Recency.Entry κ ν}

theorem prunedFrom_zero : prunedFrom drop es 0 = es.filter fun e => !drop e.key := by
  simp [prunedFrom]

theorem prunedFrom_length : prunedFrom drop es es.length = es := by
  simp [prunedFrom]

/-- Before the handled positions, the entries are the old ones. -/
theorem getElem?_prunedFrom {n j : Nat} (hj : j < n) : (prunedFrom drop es n)[j]? = es[j]? := by
  rw [prunedFrom, List.getElem?_append]
  by_cases hlen : j < (es.take n).length
  · rw [if_pos hlen, List.getElem?_take, if_pos hj]
  · -- past the end of the list there is nothing on either side
    have hshort : es.length ≤ j := by
      simp only [List.length_take] at hlen
      omega
    rw [if_neg hlen, List.drop_eq_nil_of_le (by omega), List.getElem?_eq_none hshort]
    rfl

/-- Around position `i`, a list is its part before `i`, the entry there and its part after. -/
theorem take_drop_of_getElem? (he : es[i]? = some e) :
    es.take (i + 1) = es.take i ++ [e] ∧ es.drop i = e :: es.drop (i + 1) := by
  have hi : i < es.length := (List.getElem?_eq_some_iff.mp he).1
  refine ⟨by rw [List.take_add_one, he, Option.toList_some], ?_⟩
  rw [List.drop_eq_getElem_cons hi, (List.getElem?_eq_some_iff.mp he).2]

/-- Handling a position whose key is dropped erases it. -/
theorem eraseIdx_prunedFrom (he : es[i]? = some e) (hd : drop e.key = true) :
    (prunedFrom drop es (i + 1)).eraseIdx i = prunedFrom drop es i := by
  obtain ⟨htake, hdrop⟩ := take_drop_of_getElem? he
  have hlen : (es.take i).length = i :=
    List.length_take_of_le (Nat.le_of_lt (List.getElem?_eq_some_iff.mp he).1)
  rw [prunedFrom, prunedFrom, htake, hdrop, List.filter_cons_of_neg (by simp [hd]),
    List.append_assoc, List.singleton_append, List.eraseIdx_append_of_length_le (by omega), hlen,
    Nat.sub_self, List.eraseIdx_cons_zero]

/-- Handling a position whose key is kept changes nothing. -/
theorem prunedFrom_succ_of_kept (he : es[i]? = some e) (hd : drop e.key = false) :
    prunedFrom drop es (i + 1) = prunedFrom drop es i := by
  obtain ⟨htake, hdrop⟩ := take_drop_of_getElem? he
  rw [prunedFrom, prunedFrom, htake, hdrop, List.filter_cons_of_pos (by simp [hd]),
    List.append_assoc, List.singleton_append]

/-- The entries a walk down to position `i` has taken, in the order it took them. -/
theorem filter_take_succ (he : es[i]? = some e) :
    ((es.take (i + 1)).filter fun e => drop e.key).reverse =
      (if drop e.key then [e] else []) ++ ((es.take i).filter fun e => drop e.key).reverse := by
  rw [(take_drop_of_getElem? he).1, List.filter_append, List.reverse_append]
  cases hd : drop e.key <;> simp [hd]

end Recency

namespace Lru

variable {κ ν : Type} [BEq κ] [Hashable κ] {m m0 : Lru (SomeIndex κ) κ ν} {drop : κ → Bool}
  {L : List (Recency.Entry κ ν)} {i : Nat} {e : Recency.Entry κ ν} {c : Cursor}

/-- A cursor at the entry in position `i` of a map whose walk has handled the positions after
`i` stands at position `i` of the map's list and reads that entry's key. -/
theorem Follows.cursor_at_prunedFrom (hf : m.Follows m0 (Recency.prunedFrom drop L (i + 1)))
    (he : L[i]? = some e) (hslot : c.slot = e.slot) :
    m.arena.view.slots[i]? = some c.slot ∧ m.toList[i]? = some e.pair ∧ c.key m = .ok e.key := by
  have hentry : m.arena.view.entries[i]? = some e := by
    rw [hf.entries_eq, Recency.getElem?_prunedFrom (Nat.lt_succ_self i), he]
  have hi : m.arena.view.slots[i]? = some c.slot := by
    rw [Recency.slots, List.getElem?_map, hentry, hslot]
    rfl
  obtain ⟨k, v, hkv, hkey, -⟩ := Cursor.key_value_at hf.consistent hi
  have hpair : m.toList[i]? = some e.pair := by
    rw [toList_eq, List.getElem?_map, hentry]
    rfl
  obtain rfl : k = e.key := (Prod.mk.inj (Option.some.inj (hkv.symm.trans hpair))).1
  exact ⟨hi, hpair, hkey⟩

/-- A round at an entry whose key is dropped takes it, which handles its position, and goes on
from a fresh cursor at the entry before it, if there is one. -/
theorem Follows.pruneFrom_dropped (hf : m.Follows m0 (Recency.prunedFrom drop L (i + 1)))
    (he : L[i]? = some e) (hslot : c.slot = e.slot) (hd : drop e.key = true) (fuel : Nat) :
    ∃ m', m'.Follows m0 (Recency.prunedFrom drop L i) ∧
      m.pruneFrom drop (fuel + 1) c = match neighbourAt m.arena.view.slots i false with
        | none => .ok (some ([e.pair], m'))
        | some s => Option.map (fun r => (e.pair :: r.1, r.2)) <$>
            m'.pruneFrom drop fuel (m'.cursorAt s) := by
  obtain ⟨hi, hpair, hkey⟩ := hf.cursor_at_prunedFrom he hslot
  obtain ⟨p, m', sigs, hp, htake, hf', -⟩ := Cursor.take_at hf.consistent hi false
  obtain rfl : p = e.pair := Option.some.inj (hp.symm.trans hpair)
  have hentries : m.arena.view.entries.eraseIdx i = Recency.prunedFrom drop L i := by
    rw [hf.entries_eq, Recency.eraseIdx_prunedFrom he hd]
  refine ⟨m', hentries ▸ hf'.trans hf, ?_⟩
  rw [pruneFrom]
  simp only [hkey, hd, htake, bind, Except.bind, if_true]
  cases neighbourAt m.arena.view.slots i false with
  | none => rfl
  | some s =>
    simp only [Option.map_some]
    cases m'.pruneFrom drop fuel (m'.cursorAt s) <;> rfl

/-- A round at an entry whose key is kept handles its position without a change, and moves on
to the entry before it, if there is one. -/
theorem Follows.pruneFrom_kept (hf : m.Follows m0 (Recency.prunedFrom drop L (i + 1)))
    (he : L[i]? = some e) (hslot : c.slot = e.slot) (hd : drop e.key = false) (fuel : Nat) :
    m.Follows m0 (Recency.prunedFrom drop L i) ∧
      m.pruneFrom drop (fuel + 1) c = match neighbourAt m.arena.view.slots i false with
        | none => .ok (some ([], m))
        | some s => m.pruneFrom drop fuel { c with slot := s } := by
  obtain ⟨hi, -, hkey⟩ := hf.cursor_at_prunedFrom he hslot
  have hmove := Cursor.move_at hf.consistent hi false
  simp only [Bool.false_eq_true, if_false] at hmove
  refine ⟨Recency.prunedFrom_succ_of_kept he hd ▸ hf, ?_⟩
  rw [pruneFrom]
  simp only [hkey, hd, hmove, bind, Except.bind, Bool.false_eq_true, if_false]
  cases neighbourAt m.arena.view.slots i false <;> rfl

/-- The walk from a cursor at the entry in position `i`, with the positions after `i` handled
and more than `i` rounds to go, takes the dropped entries among the first `i + 1`, from position
`i` down, and leaves the kept entries. The induction is on `i`: each round handles position `i`
and leaves a cursor, fresh or moved, at position `i - 1`, or ends at the head. -/
theorem Follows.pruneFrom_run (drop : κ → Bool) :
    ∀ (i fuel : Nat) {m : Lru (SomeIndex κ) κ ν} {c : Cursor} {e : Recency.Entry κ ν},
      i < fuel → m.Follows m0 (Recency.prunedFrom drop L (i + 1)) → L[i]? = some e →
      c.slot = e.slot →
      ∃ m', m.pruneFrom drop fuel c = .ok (some
          (((L.take (i + 1)).filter fun e => drop e.key).reverse.map Recency.Entry.pair, m')) ∧
        m'.Follows m0 (L.filter fun e => !drop e.key) := by
  intro i
  induction i with
  | zero =>
    intro fuel m c e hfuel hf he hslot
    obtain ⟨f, rfl⟩ : ∃ f, fuel = f + 1 := ⟨fuel - 1, by omega⟩
    -- at the head there is no entry before
    have hnone : neighbourAt m.arena.view.slots 0 false = none := rfl
    rw [Recency.filter_take_succ he]
    cases hd : drop e.key with
    | false =>
      obtain ⟨hf', hrun⟩ := hf.pruneFrom_kept he hslot hd f
      rw [hnone] at hrun
      exact ⟨m, by simpa using hrun, Recency.prunedFrom_zero ▸ hf'⟩
    | true =>
      obtain ⟨m', hf', hrun⟩ := hf.pruneFrom_dropped he hslot hd f
      rw [hnone] at hrun
      exact ⟨m', by simpa using hrun, Recency.prunedFrom_zero ▸ hf'⟩
  | succ j ih =>
    intro fuel m c e hfuel hf he hslot
    obtain ⟨f, rfl⟩ : ∃ f, fuel = f + 1 := ⟨fuel - 1, by omega⟩
    -- the entry in position `j`, before the cursor's, is where the walk goes on
    have hj : j < L.length := Nat.lt_of_succ_lt (List.getElem?_eq_some_iff.mp he).1
    obtain ⟨e', he'⟩ : ∃ e', L[j]? = some e' := ⟨L[j], List.getElem?_eq_getElem hj⟩
    have hprev : neighbourAt m.arena.view.slots (j + 1) false = some e'.slot := by
      rw [neighbourAt, Recency.slots, List.getElem?_map, hf.entries_eq,
        Recency.getElem?_prunedFrom (by omega), he']
      rfl
    rw [Recency.filter_take_succ he]
    cases hd : drop e.key with
    | false =>
      obtain ⟨hf', hrun⟩ := hf.pruneFrom_kept he hslot hd f
      rw [hprev] at hrun
      obtain ⟨m', hrest, hfinal⟩ := ih f (c := { c with slot := e'.slot }) (by omega) hf' he' rfl
      exact ⟨m', by simpa [hrun] using hrest, hfinal⟩
    | true =>
      obtain ⟨m', hf', hrun⟩ := hf.pruneFrom_dropped he hslot hd f
      rw [hprev] at hrun
      obtain ⟨m'', hrest, hfinal⟩ := ih f (c := m'.cursorAt e'.slot) (by omega) hf' he' rfl
      refine ⟨m'', ?_, hfinal⟩
      rw [hrun]
      dsimp only
      rw [hrest]
      simp [Functor.map, Except.map]

/-- On a consistent map, the walk that removes while walking ends within as many rounds as the
map has entries. It takes exactly the entries whose keys are dropped, from the least recent to
the most recent, and leaves a consistent map of the same capacity holding the other entries in
their order. -/
theorem Consistent.prune_removes_matching (hc : m.Consistent) (drop : κ → Bool) {fuel : Nat}
    (hfuel : m.size ≤ fuel) :
    ∃ m', m.prune drop fuel = .ok (some ((m.toList.filter fun p => drop p.1).reverse, m')) ∧
      m'.Follows m (m.arena.view.entries.filter fun e => !drop e.key) ∧
      m'.toList = m.toList.filter fun p => !drop p.1 := by
  have hpairs : ∀ q : κ → Bool, m.toList.filter (fun p => q p.1) =
      (m.arena.view.entries.filter fun e => q e.key).map Recency.Entry.pair := by
    intro q
    rw [toList_eq, List.filter_map]
    rfl
  have htail := hc.tail_eq
  cases hlast : m.arena.view.entries.getLast? with
  | none =>
    -- an empty map: nothing to walk
    rw [List.getLast?_eq_none_iff] at hlast
    have htoList : m.toList = [] := by rw [toList_eq, hlast, List.map_nil]
    refine ⟨m, ?_, ?_, by rw [htoList]; rfl⟩
    · simp [prune, tailEntry?, htail, hlast, htoList]
    · simpa [hlast] using hc.follows_self
  | some e =>
    -- the walk starts at the last position, with nothing after it to handle
    have hlen : m.arena.view.entries.length - 1 + 1 = m.arena.view.entries.length := by
      have := List.length_pos_of_ne_nil (List.getLast?_isSome.mp (by rw [hlast]; rfl))
      omega
    have he : m.arena.view.entries[m.arena.view.entries.length - 1]? = some e := by
      rw [← List.getLast?_eq_getElem?, hlast]
    have hstart : m.Follows m (Recency.prunedFrom drop m.arena.view.entries
        (m.arena.view.entries.length - 1 + 1)) := by
      rw [hlen, Recency.prunedFrom_length]
      exact hc.follows_self
    have hrounds : m.arena.view.entries.length - 1 < fuel := by
      rw [← hc.size_eq] at hlen ⊢
      omega
    obtain ⟨m', hrun, hf'⟩ :=
      hstart.pruneFrom_run drop _ fuel (c := m.cursorAt e.slot) hrounds he rfl
    refine ⟨m', ?_, hf', ?_⟩
    · rw [prune, tailEntry?, htail, hlast, Option.map_some, Option.map_some]
      dsimp only
      rw [hrun, hlen, List.take_length, hpairs drop, List.map_reverse]
    · rw [toList_eq, hf'.entries_eq, hpairs fun k => !drop k]

end Lru

namespace Session

variable {κ : Type} [BEq κ] [Hashable κ] [ToString κ] {s : Session κ}
  {shape : MapShape κ} {capacity : Int} {setup : SessionSetup κ}

/-- In every session a script reaches, from lawful keys and with no armed reaction to a miss,
the walk that removes while walking ends within as many rounds as the map has entries, for any
keys to drop. It takes exactly the entries whose keys are dropped, from the least recent to the
most recent, and leaves a consistent map of the same capacity holding the other entries in
their order. -/
theorem walk_removes_matching (hshape : shape.Lawful) (hmiss : setup.missPush = none)
    (hs : Reachable shape capacity setup s) (drop : κ → Bool) {fuel : Nat}
    (hfuel : s.map.size ≤ fuel) :
    ∃ m', s.map.prune drop fuel =
        .ok (some ((s.map.toList.filter fun p => drop p.1).reverse, m')) ∧
      m'.toList = s.map.toList.filter (fun p => !drop p.1) ∧ m'.Consistent ∧
      m'.capacity = s.map.capacity := by
  obtain ⟨m', hrun, hf, htoList⟩ :=
    (hs.good hshape hmiss).consistent.prune_removes_matching drop hfuel
  exact ⟨m', hrun, htoList, hf.consistent, hf.capacity_eq⟩

/-- The witness: an ordered map of capacity three over integer keys holding three entries,
walked to drop the key two, which stands in the middle. -/
theorem walk_removes_matching_middle :
    ∃ s : Session Int, (MapShape.ordered (some compare) : MapShape Int).Lawful ∧
      ({ observers := ⟨false, false, false, false⟩, loader := none, naming := none,
         missPush := none } : SessionSetup Int).missPush = none ∧
      Reachable (.ordered (some compare)) 3
        ({ observers := ⟨false, false, false, false⟩, loader := none, naming := none,
           missPush := none } : SessionSetup Int) s ∧
      s.map.size ≤ 3 ∧
      ∃ m', s.map.prune (· == 2) 3 =
          .ok (some ((s.map.toList.filter fun p => p.1 == 2).reverse, m')) ∧
        m'.toList = s.map.toList.filter (fun p => !(p.1 == 2)) ∧ m'.Consistent ∧
        m'.capacity = s.map.capacity := by
  have hlaw := MapShape.lawful_ordered_compare
  have hok : ((open? (.ordered (some compare) : MapShape Int) 3
      ({ observers := ⟨false, false, false, false⟩, loader := none, naming := none,
         missPush := none } : SessionSetup Int) false).toOption.bind fun s0 =>
      (s0.step false (.push 1 "a")).toOption.bind fun p1 =>
      (p1.2.step false (.push 2 "b")).toOption.bind fun p2 =>
      (p2.2.step false (.push 3 "c")).toOption.map fun p3 =>
        decide (p3.2.map.size ≤ 3)) = some true := by
    decide +kernel
  cases h0 : open? (.ordered (some compare) : MapShape Int) 3
      ({ observers := ⟨false, false, false, false⟩, loader := none, naming := none,
         missPush := none } : SessionSetup Int) false with
  | error e => simp [h0, Except.toOption] at hok
  | ok s0 =>
  cases h1 : s0.step false (.push 1 "a") with
  | error e => simp [h0, h1, Except.toOption] at hok
  | ok p1 =>
  cases h2 : p1.2.step false (.push 2 "b") with
  | error e => simp [h0, h1, h2, Except.toOption] at hok
  | ok p2 =>
  cases h3 : p2.2.step false (.push 3 "c") with
  | error e => simp [h0, h1, h2, h3, Except.toOption] at hok
  | ok p3 =>
  have hs : Reachable (.ordered (some compare)) 3
      ({ observers := ⟨false, false, false, false⟩, loader := none, naming := none,
         missPush := none } : SessionSetup Int) p3.2 :=
    .step false _ (.step false _ (.step false _ (.opened false h0) h1) h2) h3
  have hsize : p3.2.map.size ≤ 3 := by
    simpa [h0, h1, h2, h3, Except.toOption] using hok
  exact ⟨p3.2, hlaw, rfl, hs, hsize, walk_removes_matching hlaw rfl hs (· == 2) hsize⟩

end Session

end RecencyMap
