import RecencyMap.Proofs.Session.Positions

/-!
# Extending a map keeps the most recent keys that fit

Pushing pairs one after another has a closed form, the inclusion property of replacing the
least recently used entry. After pushing `(k₁, v₁), …, (kₙ, vₙ)` onto the pairs `ps` of a map,
most recent first, the map holds the first `capacity` pairs of
`firstOfEach ([(kₙ, vₙ), …, (k₁, v₁)] ++ ps)`, where `firstOfEach` keeps the first pair of each
key. So the map holds the `capacity` most recently pushed or present keys in recency order, and
each holds the value of its last push, or its old value when it was not pushed.

A key that stays present keeps the spelling it was first stored under, so the closed form holds
up to the spelling of keys: `Naive.Same` relates two pairs whose keys the map takes for one
another and whose values are equal.

The proof is an induction on the pushed pairs, last one first. One push of a pair onto the
closed form of some pairs gives the closed form of the pairs with it in front
(`Naive.push_firstOfEach`), and a push treats pairs that are the same up to spelling alike
(`Naive.push_same`).
-/

namespace RecencyMap

namespace Naive

variable {κ ν : Type} (eqv : κ → κ → Bool)

/-- The first pair of each key, in order: a pair whose key is taken for an earlier pair's key
is left out. -/
def firstOfEach : List (κ × ν) → List (κ × ν)
  | [] => []
  | p :: ps => p :: drop eqv (firstOfEach ps) p.1

example : firstOfEach (fun a b : Nat => a == b) [(2, "c"), (1, "b"), (1, "a"), (3, "x")] =
    [(2, "c"), (1, "b"), (3, "x")] := by decide

/-- Two pairs whose keys are taken for one another and whose values are equal. -/
def Same (p q : κ × ν) : Prop := eqv p.1 q.1 = true ∧ p.2 = q.2

variable {eqv}

theorem drop_cons (p : κ × ν) (ps : List (κ × ν)) (k : κ) :
    drop eqv (p :: ps) k = if eqv p.1 k then drop eqv ps k else p :: drop eqv ps k := by
  by_cases h : eqv p.1 k <;> simp [drop, h]

/-- Dropping a key no pair has keeps every pair. -/
theorem drop_of_forall {ps : List (κ × ν)} {k : κ} (h : ∀ q ∈ ps, eqv q.1 k = false) :
    drop eqv ps k = ps :=
  List.filter_eq_self.mpr fun q hq => by simp [h q hq]

theorem find?_eq_none_iff {ps : List (κ × ν)} {k : κ} :
    find? eqv ps k = none ↔ ∀ q ∈ ps, eqv q.1 k = false := by
  simp [find?, List.find?_eq_none]

/-- When no pair among the first `n` has the key `k`, dropping `k` keeps those `n`. -/
theorem take_drop_of_find?_take {ps : List (κ × ν)} {k : κ} {n : Nat}
    (h : find? eqv (ps.take n) k = none) : (drop eqv ps k).take n = ps.take n := by
  induction ps generalizing n with
  | nil => rfl
  | cons q ps ih =>
    cases n with
    | zero => rfl
    | succ n =>
      rw [List.take_succ_cons, find?_eq_none_iff, List.forall_mem_cons] at h
      rw [drop_cons, if_neg (by simp [h.1]), List.take_succ_cons, List.take_succ_cons,
        ih (find?_eq_none_iff.mpr h.2)]

section Equivalence

variable (heq : Equivalence fun a b : κ => eqv a b = true)
include heq

/-- Pairs that are the same up to spelling are the same to every key. -/
theorem Same.eqv_eq {p q : κ × ν} (h : Same eqv p q) (k : κ) : eqv p.1 k = eqv q.1 k := by
  cases hp : eqv p.1 k with
  | false =>
    cases hq : eqv q.1 k with
    | false => rfl
    | true => rw [heq.trans h.1 hq] at hp; cases hp
  | true => exact (heq.trans (heq.symm h.1) hp).symm

theorem same_refl (p : κ × ν) : Same eqv p p := ⟨heq.refl p.1, rfl⟩

theorem forall₂_same_refl (ps : List (κ × ν)) : List.Forall₂ (Same eqv) ps ps :=
  List.forall₂_same.mpr fun p _ => same_refl heq p

theorem forall₂_same_trans {as bs cs : List (κ × ν)} (hab : List.Forall₂ (Same eqv) as bs)
    (hbc : List.Forall₂ (Same eqv) bs cs) : List.Forall₂ (Same eqv) as cs := by
  induction hab generalizing cs with
  | nil => exact hbc
  | cons hpq _ ih =>
    cases hbc with
    | cons hqr hrest => exact .cons ⟨heq.trans hpq.1 hqr.1, hpq.2.trans hqr.2⟩ (ih hrest)

/-- The first pair of each key never repeats a key. -/
theorem distinct_firstOfEach (ps : List (κ × ν)) :
    (firstOfEach eqv ps).Pairwise fun p q => eqv p.1 q.1 = false := by
  induction ps with
  | nil => exact .nil
  | cons p ps ih =>
    refine List.pairwise_cons.mpr ⟨fun q hq => ?_, ih.sublist List.filter_sublist⟩
    have hq' : eqv q.1 p.1 = false := by simpa [drop] using (List.mem_filter.mp hq).2
    cases h : eqv p.1 q.1 with
    | false => rfl
    | true => rw [heq.symm h] at hq'; cases hq'

/-- Pairs with no repeated key are their own first pairs. -/
theorem firstOfEach_of_distinct {ps : List (κ × ν)}
    (h : ps.Pairwise fun p q => eqv p.1 q.1 = false) : firstOfEach eqv ps = ps := by
  induction ps with
  | nil => rfl
  | cons p ps ih =>
    obtain ⟨hp, hrest⟩ := List.pairwise_cons.mp h
    rw [firstOfEach, ih hrest, drop_of_forall fun q hq => ?_]
    cases hqp : eqv q.1 p.1 with
    | false => rfl
    | true =>
      have hpq := heq.symm hqp
      rw [hp q hq] at hpq
      cases hpq

/-- When the pair of `k` is among the first `n` pairs of a list with no repeated key, dropping
`k` from those `n` leaves the first `n - 1` pairs of the list without `k`. -/
theorem drop_take_of_find?_take {ps : List (κ × ν)}
    (hps : ps.Pairwise fun p q => eqv p.1 q.1 = false) {k : κ} {n : Nat} {p : κ × ν}
    (h : find? eqv (ps.take n) k = some p) : drop eqv (ps.take n) k = (drop eqv ps k).take (n - 1) := by
  induction ps generalizing n with
  | nil => simp [find?] at h
  | cons q ps ih =>
    obtain ⟨hq, hrest⟩ := List.pairwise_cons.mp hps
    cases n with
    | zero => simp [find?] at h
    | succ n =>
      rw [List.take_succ_cons] at h ⊢
      by_cases hqk : eqv q.1 k = true
      · -- `q` is the pair of `k`, and no later pair shares its key
        have hnone : ∀ r ∈ ps, eqv r.1 k = false := by
          intro r hr
          cases hrk : eqv r.1 k with
          | false => rfl
          | true =>
            have hqr := heq.trans hqk (heq.symm hrk)
            rw [hq r hr] at hqr
            cases hqr
        rw [drop_cons, if_pos hqk, drop_cons, if_pos hqk, drop_of_forall hnone,
          drop_of_forall fun r hr => hnone r (List.mem_of_mem_take hr), Nat.add_sub_cancel]
      · have hqk' : eqv q.1 k = false := by simpa using hqk
        have h' : find? eqv (ps.take n) k = some p := by
          simpa [find?, List.find?_cons, hqk'] using h
        cases n with
        | zero => simp [find?] at h'
        | succ m =>
          rw [drop_cons, if_neg hqk, drop_cons, if_neg hqk, ih hrest h', Nat.add_sub_cancel,
            Nat.add_sub_cancel, List.take_succ_cons]

/-- Pushing a pair onto the first `capacity` first pairs of a list gives, up to the spelling of
the key pushed, the first `capacity` first pairs of the list with the pair in front. -/
theorem push_firstOfEach {cap : Nat} (hcap : 0 < cap) (ps : List (κ × ν)) (k : κ) (v : ν) :
    List.Forall₂ (Same eqv) (push eqv cap ((firstOfEach eqv ps).take cap) k v).2
      ((firstOfEach eqv ((k, v) :: ps)).take cap) := by
  cases cap with
  | zero => omega
  | succ c =>
  rw [firstOfEach, List.take_succ_cons]
  have hd := distinct_firstOfEach heq ps
  generalize firstOfEach eqv ps = d at hd ⊢
  unfold push
  cases hf : find? eqv (d.take (c + 1)) k with
  | some sp =>
    -- a present key keeps its spelling and moves to the front
    obtain ⟨stored, old⟩ := sp
    have hsk : eqv stored k = true := by simpa using List.find?_some hf
    dsimp only
    rw [drop_take_of_find?_take heq hd hf, Nat.add_sub_cancel]
    exact .cons ⟨hsk, rfl⟩ (forall₂_same_refl heq _)
  | none =>
    -- a new key: the first `capacity` pairs have no pair of it
    have hkeep := take_drop_of_find?_take hf
    have hsub : (drop eqv d k).length ≤ d.length := List.length_filter_le _ _
    dsimp only
    split
    · -- room to spare: the list is shorter than the capacity
      next hlt =>
      have hshort : d.length ≤ c := by
        simp only [List.length_take] at hlt
        omega
      rw [List.take_of_length_le (by omega), List.take_of_length_le (by omega)] at hkeep
      rw [List.take_of_length_le (by omega), hkeep, List.take_of_length_le hshort]
      exact forall₂_same_refl heq _
    · -- full: the last of the first `capacity` pairs makes room
      next hge =>
      have hlen : c + 1 ≤ d.length := by
        simp only [List.length_take] at hge
        omega
      have hdrop : (drop eqv d k).take c = d.take c := by
        have h := congrArg (List.take c) hkeep
        simpa [List.take_take] using h
      cases hl : (d.take (c + 1)).getLast? with
      | none =>
        rw [List.getLast?_eq_none_iff, List.take_eq_nil_iff] at hl
        rcases hl with hl | rfl
        · omega
        · simp at hlen
      | some last =>
        obtain ⟨lk, lv⟩ := last
        dsimp only
        rw [List.dropLast_eq_take, List.length_take, Nat.min_eq_left hlen, Nat.add_sub_cancel,
          List.take_take, Nat.min_eq_left (Nat.le_succ c), hdrop]
        exact forall₂_same_refl heq _

/-- A push treats lists that are the same up to spelling alike. -/
theorem push_same {cap : Nat} {as bs : List (κ × ν)} (h : List.Forall₂ (Same eqv) as bs)
    (k : κ) (v : ν) :
    List.Forall₂ (Same eqv) (push eqv cap as k v).2 (push eqv cap bs k v).2 := by
  have hfind : ∀ {as bs : List (κ × ν)}, List.Forall₂ (Same eqv) as bs →
      Option.Rel (Same eqv) (find? eqv as k) (find? eqv bs k) := by
    intro as bs h
    induction h with
    | nil => exact .none
    | cons hpq _ ih =>
      simp only [find?, List.find?_cons, hpq.eqv_eq heq]
      split
      · exact .some hpq
      · exact ih
  have hdrop : List.Forall₂ (Same eqv) (drop eqv as k) (drop eqv bs k) :=
    List.rel_filter (fun p q hpq => by simp [hpq.eqv_eq heq]) h
  have hlen := h.length_eq
  have hrel := hfind h
  unfold push
  generalize find? eqv as k = fa at hrel ⊢
  generalize find? eqv bs k = fb at hrel ⊢
  cases hrel with
  | none =>
    dsimp only
    rw [hlen]
    split
    · exact .cons (same_refl heq _) h
    · -- both lists are as long, and the last pair of each goes
      have hdl : List.Forall₂ (Same eqv) as.dropLast bs.dropLast := by
        rw [List.dropLast_eq_take, List.dropLast_eq_take, hlen]
        exact List.forall₂_take _ h
      cases hla : as.getLast? with
      | none =>
        rw [List.getLast?_eq_none_iff] at hla
        subst hla
        cases h
        exact .cons (same_refl heq _) .nil
      | some la =>
        cases hlb : bs.getLast? with
        | none =>
          rw [List.getLast?_eq_none_iff] at hlb
          subst hlb
          cases h
          simp at hla
        | some lb => exact .cons (same_refl heq _) hdl
  | some hpq =>
    -- both find a pair of `k`, and both keep its spelling
    exact .cons ⟨hpq.1, rfl⟩ hdrop

/-- Pushing pairs one after another onto pairs with no repeated key and no more than the
capacity leaves, up to the spelling of keys, the first `capacity` first pairs of the pushed
pairs, last one first, followed by the old pairs. -/
theorem extend_firstOfEach {cap : Nat} (hcap : 0 < cap) {ps : List (κ × ν)} (hwf : Wf eqv cap ps)
    (pairs : List (κ × ν)) :
    List.Forall₂ (Same eqv) (extend eqv cap ps pairs)
      ((firstOfEach eqv (pairs.reverse ++ ps)).take cap) := by
  induction pairs using List.reverseRecOn with
  | nil =>
    rw [List.reverse_nil, List.nil_append, firstOfEach_of_distinct heq hwf.distinct,
      List.take_of_length_le hwf.length_le]
    exact forall₂_same_refl heq ps
  | append_singleton pairs p ih =>
    -- the last pair is pushed onto what the others left
    have hrun : extend eqv cap ps (pairs ++ [p]) = (push eqv cap (extend eqv cap ps pairs) p.1 p.2).2 := by
      simp [extend, List.foldl_append]
    rw [hrun, List.reverse_append, List.reverse_singleton, List.singleton_append, List.cons_append]
    exact forall₂_same_trans heq (push_same heq ih p.1 p.2) (push_firstOfEach heq hcap _ p.1 p.2)

end Equivalence

end Naive

namespace SomeIndex

variable {κ : Type} [BEq κ] [Hashable κ] {ix : SomeIndex κ}

/-- The keys of a lawful index are taken for one another by an equivalence. -/
theorem eqv_equivalence (h : ix.Lawful) : Equivalence fun a b : κ => ix.eqv a b = true :=
  ⟨eqv_refl h, eqv_symm h, eqv_trans h⟩

end SomeIndex

namespace Lru

variable {κ ν : Type} [BEq κ] [Hashable κ] {m : Lru (SomeIndex κ) κ ν}

/-- Extending a consistent map with room for an entry pushes every pair and leaves a map of the
same capacity that holds, up to the spelling of keys, the first `capacity` first pairs of the
pushed pairs, last one first, followed by the map's own pairs. -/
theorem Consistent.extend_firstOfEach (hc : m.Consistent) (hcap : 0 < m.capacity)
    (pairs : List (κ × ν)) :
    ∃ m' sigs, m.extend pairs = .ok ((), m', sigs) ∧ m'.Consistent ∧
      m'.capacity = m.capacity ∧
      List.Forall₂ (Naive.Same m.index.eqv) m'.toList
        ((Naive.firstOfEach m.index.eqv (pairs.reverse ++ m.toList)).take m.capacity) := by
  obtain ⟨m', sigs, es, hext, hf, hes⟩ := hc.extend_naive hcap pairs
  refine ⟨m', sigs, hext, hf.consistent, hf.capacity_eq, ?_⟩
  rw [toList_eq, hf.entries_eq, hes]
  exact Naive.extend_firstOfEach (SomeIndex.eqv_equivalence hc.describes.lawful) hcap
    hc.naive_wf pairs

end Lru

namespace Session

variable {κ : Type} [BEq κ] [Hashable κ] [ToString κ] {s : Session κ}
  {shape : MapShape κ} {capacity : Int} {setup : SessionSetup κ}

/-- In every session a script reaches, from lawful keys and with no armed reaction to a miss,
extending the map with any pairs pushes them one after another. The map keeps its capacity and
holds, up to the spelling of keys, the first `capacity` pairs of the pushed pairs, last one
first, followed by the pairs it held, keeping the first pair of each key: the most recently
pushed or present keys that fit, in recency order, each with the value of its last push or,
when it was not pushed, its old value. -/
theorem extend_keeps_most_recent (hshape : shape.Lawful) (hmiss : setup.missPush = none)
    (hs : Reachable shape capacity setup s) (pairs : List (κ × String)) (listKeys : Bool) :
    ∃ rep u, s.step listKeys (.extend pairs) = .ok (rep, u) ∧ rep.reply = .unit ∧
      u.map.capacity = s.map.capacity ∧
      List.Forall₂ (Naive.Same s.map.index.eqv) u.map.toList
        ((Naive.firstOfEach s.map.index.eqv (pairs.reverse ++ s.map.toList)).take
          s.map.capacity) := by
  have hgood := hs.good hshape hmiss
  obtain ⟨m', sigs, hext, -, hcap, hsame⟩ :=
    hgood.consistent.extend_firstOfEach hgood.capacity_pos pairs
  obtain ⟨rep, h, hrep⟩ := step_runs (show s.refusal? (.extend pairs) = none from rfl) listKeys
  -- the step extends the map and answers with nothing
  have hrun := exec_onMap_ok (f := fun m => m.extend pairs) { s with events := #[] } hext
  have hperf : perform (.extend pairs) = (onMap (·.extend pairs) >>= fun _ => pure .unit :
      SessionM κ (Reply κ)) := rfl
  rw [hperf, exec_bind, hrun] at h hrep
  exact ⟨rep, _, h, hrep, hcap, hsame⟩

/-- The witness: a hash map of capacity two over natural keys, just opened, extended with three
pairs of which the first two share a key. -/
theorem extend_keeps_most_recent_three_pairs :
    (MapShape.hashed : MapShape Nat).Lawful ∧
      ({ observers := ⟨false, false, false, false⟩, loader := none, naming := none,
         missPush := none } : SessionSetup Nat).missPush = none ∧
      ∃ s : Session Nat, Reachable .hashed 2
          ({ observers := ⟨false, false, false, false⟩, loader := none, naming := none,
             missPush := none } : SessionSetup Nat) s ∧
        ∃ rep u, s.step false (.extend [(1, "a"), (1, "b"), (2, "c")]) = .ok (rep, u) ∧
          rep.reply = .unit ∧ u.map.capacity = s.map.capacity ∧
          List.Forall₂ (Naive.Same s.map.index.eqv) u.map.toList
            ((Naive.firstOfEach s.map.index.eqv
              ([(1, "a"), (1, "b"), (2, "c")].reverse ++ s.map.toList)).take s.map.capacity) :=
  have hlaw : (MapShape.hashed : MapShape Nat).Lawful := ⟨inferInstance, inferInstance⟩
  have hs : Reachable .hashed 2
      ({ observers := ⟨false, false, false, false⟩, loader := none, naming := none,
         missPush := none } : SessionSetup Nat) _ := .opened false rfl
  ⟨hlaw, rfl, _, hs, extend_keeps_most_recent hlaw rfl hs _ false⟩

end Session

end RecencyMap
