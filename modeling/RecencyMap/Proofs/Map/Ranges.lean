import RecencyMap.Proofs.Map.Cursors
import RecencyMap.Proofs.Arena.Walks

/-!
# Range queries on an ordered map

A range has two ends, each unbounded, included or excluded, and a key lies in it when it lies
above the lower end and below the upper one (`KeyRange.contains`). A scan of a search tree
visits exactly the tree's entries whose keys lie in the range, in ascending order: on a sorted
list the keys before the lower end form a prefix, and of the rest the keys an upper end or an
excluded lower end lets through form a prefix too, so dropping and taking while are filters
there (`KeyRange.scan_eq_filter`).

A scan with a callback calls it on the same entries, in the same order, and stops right after
the first call that answers `false` (`KeyRange.range_eq_allM_filter`); a range whose ends are
inverted has no key in it, so its scans call nothing (`KeyRange.range_of_inverted`).

The most recent entry among scanned ones is the one with the highest stamp. Stamps fall
strictly along the recency list, so that entry is the first of the recency list that the scan
selects (`Lru.mostRecentAmong_eq_find?`).
-/

namespace RecencyMap

/-! ## Prefix properties -/

section Prefix

variable {α : Type} {p : α → Bool}

/-- Where `p` holds of an element only if it holds of every earlier one, taking while `p` holds
keeps exactly the elements where it holds. -/
theorem takeWhile_eq_filter {l : List α}
    (hmono : l.Pairwise fun x y => p y = true → p x = true) : l.takeWhile p = l.filter p := by
  induction l with
  | nil => rfl
  | cons a l ih =>
    obtain ⟨hhead, hrest⟩ := List.pairwise_cons.mp hmono
    by_cases ha : p a = true
    · rw [List.takeWhile_cons_of_pos ha, List.filter_cons_of_pos ha, ih hrest]
    · rw [List.takeWhile_cons_of_neg ha, List.filter_cons_of_neg ha, eq_comm,
        List.filter_eq_nil_iff]
      -- no later element passes either
      exact fun b hb hpb => ha (hhead b hb hpb)

/-- Where `p` holds of an element only if it holds of every earlier one, dropping while `p`
holds keeps exactly the elements where it fails. -/
theorem dropWhile_eq_filter {l : List α}
    (hmono : l.Pairwise fun x y => p y = true → p x = true) :
    l.dropWhile p = l.filter fun x => !p x := by
  induction l with
  | nil => rfl
  | cons a l ih =>
    obtain ⟨hhead, hrest⟩ := List.pairwise_cons.mp hmono
    by_cases ha : p a = true
    · rw [List.dropWhile_cons_of_pos ha, List.filter_cons_of_neg (by simp [ha]), ih hrest]
    · rw [List.dropWhile_cons_of_neg ha, List.filter_cons_of_pos (by simpa using ha),
        List.filter_eq_self.mpr]
      -- every later element fails too
      exact fun b hb => by simpa using fun hpb => ha (hhead b hb hpb)

end Prefix

/-! ## Keys in a range -/

namespace Bound

variable {κ : Type} (cmp : κ → κ → Ordering)

/-- Whether `k` lies above a lower end. -/
def above : Bound κ → κ → Bool
  | .unbounded, _ => true
  | .included lo, k => cmp k lo != .lt
  | .excluded lo, k => cmp k lo == .gt

/-- Whether `k` lies below an upper end. -/
def below : Bound κ → κ → Bool
  | .unbounded, _ => true
  | .included hi, k => cmp k hi != .gt
  | .excluded hi, k => cmp k hi == .lt

end Bound

namespace KeyRange

variable {κ α : Type} {cmp : κ → κ → Ordering}

/-- Whether `k` lies in the range: above its lower end and below its upper end. -/
def contains (cmp : κ → κ → Ordering) (r : KeyRange κ) (k : κ) : Bool :=
  r.lower.above cmp k && r.upper.below cmp k

/-- A key that a scan neither drops at the start, nor stops at, nor passes over is one that lies
in the range. -/
theorem scanned_eq_contains (r : KeyRange κ) (k : κ) :
    (!r.passes cmp k && (r.passes cmp k || r.underUpper cmp k) && !r.precedes cmp k) =
      r.contains cmp k := by
  obtain ⟨lower, upper⟩ := r
  cases lower with
  | unbounded =>
    cases upper <;> simp [precedes, passes, underUpper, contains, Bound.above, Bound.below]
  | included lo =>
    cases upper <;> simp only [precedes, passes, underUpper, contains, Bound.above,
      Bound.below] <;> generalize cmp k lo = o <;> cases o <;> simp
  | excluded lo =>
    cases upper <;> simp only [precedes, passes, underUpper, contains, Bound.above,
      Bound.below] <;> generalize cmp k lo = o <;> cases o <;> simp

variable [Std.TransCmp cmp]

/-- A key below one that precedes the range precedes it too. -/
theorem precedes_of_lt (r : KeyRange κ) {x y : κ} (hxy : cmp x y = .lt)
    (hy : r.precedes cmp y = true) : r.precedes cmp x = true := by
  obtain ⟨lower, upper⟩ := r
  cases lower with
  | unbounded => simp [precedes] at hy
  | included lo =>
    simp only [precedes, beq_iff_eq] at hy ⊢
    exact Std.TransCmp.lt_trans hxy hy
  | excluded lo =>
    simp only [precedes, beq_iff_eq] at hy ⊢
    exact Std.TransCmp.lt_trans hxy hy

/-- A key below one within the upper end is within it too. -/
theorem underUpper_of_lt (r : KeyRange κ) {x y : κ} (hxy : cmp x y = .lt)
    (hy : r.underUpper cmp y = true) : r.underUpper cmp x = true := by
  obtain ⟨lower, upper⟩ := r
  cases upper with
  | unbounded => rfl
  | included hi =>
    simp only [underUpper, bne_iff_ne, ne_eq] at hy ⊢
    intro hx
    -- above the end, `x` would put `y` above it as well
    exact hy (Std.OrientedCmp.gt_of_lt
      (Std.TransCmp.lt_trans (Std.OrientedCmp.lt_of_gt hx) hxy))
  | excluded hi =>
    simp only [underUpper, beq_iff_eq] at hy ⊢
    exact Std.TransCmp.lt_trans hxy hy

/-- Past the keys before the lower end, a key below one that an upper end or an excluded lower
end lets through is let through too. -/
theorem through_of_lt (r : KeyRange κ) {x y : κ} (hxy : cmp x y = .lt)
    (hx : r.precedes cmp x = false)
    (hy : (r.passes cmp y || r.underUpper cmp y) = true) :
    (r.passes cmp x || r.underUpper cmp x) = true := by
  rcases Bool.or_eq_true_iff.mp hy with hpass | hunder
  · -- a key below an excluded lower end would precede the range
    obtain ⟨lower, upper⟩ := r
    cases lower with
    | unbounded => simp [passes] at hpass
    | included lo => simp [passes] at hpass
    | excluded lo =>
      simp only [passes, beq_iff_eq] at hpass
      simp [precedes, Std.TransCmp.lt_of_lt_of_eq hxy hpass] at hx
  · simp [underUpper_of_lt r hxy hunder]

/-- Keys the comparator takes for the same lie in the same ranges. -/
theorem contains_congr (r : KeyRange κ) {a b : κ} (hab : cmp a b = .eq) :
    r.contains cmp a = r.contains cmp b := by
  obtain ⟨lower, upper⟩ := r
  cases lower <;> cases upper <;>
    simp [contains, Bound.above, Bound.below, Std.TransCmp.congr_left hab]

/-- On a list in ascending key order, a scan visits exactly the entries whose keys lie in the
range, in order. -/
theorem scan_eq_filter (r : KeyRange κ) {l : List (κ × α)}
    (hl : l.Pairwise fun a b => cmp a.1 b.1 = .lt) :
    r.scan cmp l = l.filter fun e => r.contains cmp e.1 := by
  have hpre : l.Pairwise fun x y => r.precedes cmp y.1 = true → r.precedes cmp x.1 = true :=
    hl.imp fun hxy hy => precedes_of_lt r hxy hy
  have hthrough : (l.filter fun e => !r.precedes cmp e.1).Pairwise fun x y =>
      (r.passes cmp y.1 || r.underUpper cmp y.1) = true →
        (r.passes cmp x.1 || r.underUpper cmp x.1) = true :=
    List.pairwise_filter.mpr
      (hl.imp fun hxy hx _ hy => through_of_lt r hxy (by simpa using hx) hy)
  rw [scan, dropWhile_eq_filter hpre, takeWhile_eq_filter hthrough, List.filter_filter,
    List.filter_filter]
  exact List.filter_congr fun e _ => scanned_eq_contains r e.1

/-- A scan of a search tree visits exactly the tree's entries whose keys lie in the range. -/
theorem inTree_eq_filter (r : KeyRange κ) (t : Std.TreeMap κ α cmp) :
    r.inTree t = t.toList.filter fun e => r.contains cmp e.1 :=
  scan_eq_filter r Std.TreeMap.ordered_keys_toList

/-- The keys a scan of a search tree visits are the tree's keys in the range, in the tree's
order. -/
theorem map_fst_inTree (r : KeyRange κ) (t : Std.TreeMap κ α cmp) :
    (r.inTree t).map Prod.fst = t.keys.filter (r.contains cmp) := by
  rw [inTree_eq_filter, ← Std.TreeMap.map_fst_toList_eq_keys, List.filter_map]
  rfl

end KeyRange

/-! ## Scans with a callback -/

section Discard

variable {m : Type → Type} [Monad m] [LawfulMonad m] {β γ : Type}

theorem discard_bind_eq (x : m β) (f : β → m γ) :
    discard (x >>= f) = x >>= fun b => discard (f b) := by
  simp only [discard, LawfulFunctor.map_const, Function.comp, map_bind]

/-- Forgetting the answer of a computation that only answers forgets which answer it was. -/
theorem discard_pure_eq (a b : β) : discard (pure a : m β) = discard (pure b : m β) := by
  simp [discard, LawfulFunctor.map_const]

end Discard

namespace KeyRange

variable {κ α : Type} {cmp : κ → κ → Ordering} {m : Type → Type} [Monad m] [LawfulMonad m]

/-- Whether the ends of a range leave no key between them: the lower end lies above the upper
end, or they meet and one of them leaves out the key they meet at. -/
def Inverted (cmp : κ → κ → Ordering) (r : KeyRange κ) : Prop :=
  match r.lower, r.upper with
  | .included lo, .included hi => cmp lo hi = .gt
  | .included lo, .excluded hi | .excluded lo, .included hi | .excluded lo, .excluded hi =>
    cmp lo hi ≠ .lt
  | _, _ => False

instance (cmp : κ → κ → Ordering) (r : KeyRange κ) : Decidable (r.Inverted cmp) :=
  match r with
  | ⟨.included lo, .included hi⟩ => inferInstanceAs (Decidable (cmp lo hi = .gt))
  | ⟨.included lo, .excluded hi⟩ | ⟨.excluded lo, .included hi⟩
  | ⟨.excluded lo, .excluded hi⟩ => inferInstanceAs (Decidable (cmp lo hi ≠ .lt))
  | ⟨.unbounded, _⟩ | ⟨.included _, .unbounded⟩ | ⟨.excluded _, .unbounded⟩ => isFalse id

variable [Std.TransCmp cmp]

/-- No key lies in an inverted range. -/
theorem contains_of_inverted {r : KeyRange κ} (hr : r.Inverted cmp) (k : κ) :
    r.contains cmp k = false := by
  obtain ⟨lower, upper⟩ := r
  rw [Bool.eq_false_iff]
  intro hk
  simp only [contains, Bool.and_eq_true] at hk
  obtain ⟨habove, hbelow⟩ := hk
  -- a key in the range would put the lower end below the upper end
  cases lower with
  | unbounded => cases upper <;> exact hr.elim
  | included lo =>
    have hlo : cmp lo k ≠ .gt := fun h =>
      by simp [Bound.above, Std.OrientedCmp.lt_of_gt h] at habove
    cases upper with
    | unbounded => exact hr.elim
    | included hi =>
      have hhi : cmp k hi ≠ .gt := by simpa [Bound.below] using hbelow
      exact Std.TransCmp.le_trans hlo hhi hr
    | excluded hi =>
      have hhi : cmp k hi = .lt := by simpa [Bound.below] using hbelow
      exact hr (Std.TransCmp.lt_of_le_of_lt hlo hhi)
  | excluded lo =>
    have hlo : cmp lo k = .lt :=
      Std.OrientedCmp.lt_of_gt (by simpa [Bound.above] using habove)
    cases upper with
    | unbounded => exact hr.elim
    | included hi =>
      have hhi : cmp k hi ≠ .gt := by simpa [Bound.below] using hbelow
      exact hr (Std.TransCmp.lt_of_lt_of_le hlo hhi)
    | excluded hi =>
      have hhi : cmp k hi = .lt := by simpa [Bound.below] using hbelow
      exact hr (Std.TransCmp.lt_trans hlo hhi)

/-- Past the keys before the lower end, on entries in ascending key order, the visits of a scan
call `fn` on exactly the entries whose keys lie in the range, in order, and stop right after the
first call that answers `false`. The induction is on the entries: a key equal to an excluded
lower end is passed over and lies outside the range; a key within the upper end lies in it; at
the first key past the upper end the scan stops, and no later key lies in the range. -/
theorem discard_allM_visit (r : KeyRange κ) (fn : κ → α → m Bool) {l : List (κ × α)}
    (hl : l.Pairwise fun a b => cmp a.1 b.1 = .lt) (hpre : ∀ e ∈ l, r.precedes cmp e.1 = false) :
    discard (l.allM (r.visit cmp fn)) =
      discard ((l.filter fun e => r.contains cmp e.1).allM fun e => fn e.1 e.2) := by
  induction l with
  | nil => rfl
  | cons e rest ih =>
    obtain ⟨hafter, hrest⟩ := List.pairwise_cons.mp hl
    have ih' := ih hrest fun x hx => hpre x (List.mem_cons_of_mem _ hx)
    have hcontains := @scanned_eq_contains κ cmp r e.1
    rw [hpre e List.mem_cons_self] at hcontains
    by_cases hpass : r.passes cmp e.1 = true
    · -- an excluded lower end is passed over
      have hout : r.contains cmp e.1 = false := by simpa [hpass] using hcontains.symm
      rw [List.allM_cons, visit, if_pos hpass, pure_bind, if_pos rfl,
        List.filter_cons_of_neg (by simp [hout])]
      exact ih'
    · by_cases hunder : r.underUpper cmp e.1 = true
      · -- a key in the range is handed to `fn` on both sides
        have hin : r.contains cmp e.1 = true := by simpa [hpass, hunder] using hcontains.symm
        rw [List.allM_cons, visit, if_neg hpass, if_pos hunder, List.filter_cons_of_pos (p := fun e : κ × α => r.contains cmp e.1) hin,
          List.allM_cons, discard_bind_eq, discard_bind_eq]
        congr 1
        funext b
        cases b with
        | true => exact ih'
        | false => rfl
      · -- past the upper end the scan stops, and so does every later key
        have hnone : (rest.filter fun x => r.contains cmp x.1) = [] := by
          rw [List.filter_eq_nil_iff]
          intro x hx hin
          have hx' := @scanned_eq_contains κ cmp r x.1
          rw [hin] at hx'
          have hxunder : r.underUpper cmp x.1 = true := by
            cases hp : r.passes cmp x.1 <;> simp_all
          exact hunder (underUpper_of_lt r (hafter x hx) hxunder)
        have hout : r.contains cmp e.1 = false := by simpa [hpass, hunder] using hcontains.symm
        rw [List.allM_cons, visit, if_neg hpass, if_neg hunder, pure_bind, if_neg (by simp),
          List.filter_cons_of_neg (by simp [hout]), hnone, List.allM_nil]
        exact discard_pure_eq false true

/-- A scan of a search tree with a callback calls it on exactly the tree's entries whose keys
lie in the range, in ascending key order, and stops right after the first call that answers
`false`. -/
theorem range_eq_allM_filter (r : KeyRange κ) (t : Std.TreeMap κ α cmp) (fn : κ → α → m Bool) :
    r.range t fn = discard ((t.toList.filter fun e => r.contains cmp e.1).allM
      fun e => fn e.1 e.2) := by
  have hl : t.toList.Pairwise fun a b => cmp a.1 b.1 = .lt := Std.TreeMap.ordered_keys_toList
  have hpre : t.toList.Pairwise fun x y => r.precedes cmp y.1 = true → r.precedes cmp x.1 = true :=
    hl.imp fun hxy hy => precedes_of_lt r hxy hy
  rw [range, dropWhile_eq_filter hpre,
    discard_allM_visit r fn (hl.sublist List.filter_sublist) (fun e he => by
      simpa using (List.mem_filter.mp he).2), List.filter_filter]
  congr 2
  -- a key in the range never precedes it
  apply List.filter_congr
  intro e _
  have h := @scanned_eq_contains κ cmp r e.1
  cases hp : r.precedes cmp e.1 <;> simp_all

/-- A scan of an inverted range never calls its callback. -/
theorem range_of_inverted {r : KeyRange κ} (hr : r.Inverted cmp) (t : Std.TreeMap κ α cmp)
    (fn : κ → α → m Bool) : r.range t fn = pure () := by
  rw [range_eq_allM_filter, List.filter_eq_nil_iff.mpr fun e _ => by
    simp [contains_of_inverted hr e.1], List.allM_nil]
  simp [discard, LawfulFunctor.map_const]

example : (KeyRange.halfOpen (2 : Int) 2).Inverted compare ∧
    ¬ (KeyRange.between (2 : Int) 2).Inverted compare := by
  decide

end KeyRange

/-! ## The most recent of scanned entries -/

/-- Whether the entry is stored in the tree under a key that lies in `r` and that, with the
entry's value, satisfies `cond`. -/
def Recency.Entry.storedIn {κ ν : Type} {cmp : κ → κ → Ordering} (t : Std.TreeMap κ Slot cmp)
    (r : KeyRange κ) (cond : κ → ν → Bool) (e : Recency.Entry κ ν) : Bool :=
  t.toList.any fun p => r.contains cmp p.1 && (p.2 == e.slot && cond p.1 e.value)

namespace Lru

/-- The better of the best slot so far and a candidate: some slot, either the best so far or
the candidate, with a stamp no lower than either. -/
theorem pickNewer_spec (best : Option (Slot × Nat)) (s : Slot) (q : Nat) :
    ∃ y q', pickNewer best s q = some (y, q') ∧ (best = some (y, q') ∨ y = s ∧ q' = q) ∧
      q ≤ q' ∧ ∀ z r, best = some (z, r) → r ≤ q' := by
  cases best with
  | none => exact ⟨s, q, rfl, .inr ⟨rfl, rfl⟩, le_refl q, fun _ _ h => by cases h⟩
  | some b =>
    obtain ⟨z, r⟩ := b
    by_cases hq : q > r
    · refine ⟨s, q, by simp [pickNewer, hq], .inr ⟨rfl, rfl⟩, le_refl q, ?_⟩
      intro z' r' h
      cases h
      exact Nat.le_of_lt hq
    · refine ⟨z, r, by simp [pickNewer, hq], .inl rfl, Nat.le_of_not_lt hq, ?_⟩
      intro z' r' h
      cases h
      exact le_refl r

variable {κ ν : Type} [BEq κ] [Hashable κ] {m : Lru (SomeIndex κ) κ ν}

/-- Along the recency list of a consistent map, stamps fall strictly. -/
theorem Consistent.seq_pairwise (hc : m.Consistent) :
    m.arena.view.entries.Pairwise fun e e' => e'.seq < e.seq := by
  obtain ⟨order, h⟩ := hc.shape
  have hseq := h.seq_along_toList
  rw [List.pairwise_map] at hseq
  show (m.arena.toList.map Recency.Entry.ofCell).Pairwise _
  rw [List.pairwise_map]
  exact hseq

/-- Scanned slots select an entry when one of them is its slot, scanned under a key that
satisfies `cond` with the entry's value. -/
def Selects (cond : κ → ν → Bool) (entries : List (κ × Slot)) (e : Recency.Entry κ ν) : Prop :=
  ∃ p ∈ entries, p.2 = e.slot ∧ cond p.1 e.value = true

omit [BEq κ] [Hashable κ] in
theorem selects_cons {cond : κ → ν → Bool} {p : κ × Slot} {rest : List (κ × Slot)}
    {e : Recency.Entry κ ν} :
    Selects cond (p :: rest) e ↔
      (p.2 = e.slot ∧ cond p.1 e.value = true) ∨ Selects cond rest e := by
  simp [Selects]

/-- The walk over scanned live slots keeps the candidate with the highest stamp. It ends with
nothing only when it started with nothing and the scan selects no entry. Otherwise it ends with
the best so far or with a selected entry, and no selected entry and no earlier best has a higher
stamp. The induction is on the scanned slots, carrying the best so far. -/
theorem Consistent.mostRecentAmong_go (hc : m.Consistent) (cond : κ → ν → Bool) :
    ∀ (entries : List (κ × Slot)) (best : Option (Slot × Nat)),
      (∀ p ∈ entries, m.arena.live p.2 = true) →
      ∃ r, mostRecentAmong.go m cond best entries = .ok r ∧
        (r = none → best = none ∧ ∀ e ∈ m.arena.view.entries, ¬ Selects cond entries e) ∧
        ∀ x q, r = some (x, q) →
          (best = some (x, q) ∨ ∃ e ∈ m.arena.view.entries, e.slot = x ∧ e.seq = q ∧
            Selects cond entries e) ∧
          (∀ e ∈ m.arena.view.entries, Selects cond entries e → e.seq ≤ q) ∧
          ∀ y q', best = some (y, q') → q' ≤ q := by
  obtain ⟨order, h⟩ := hc.shape
  intro entries
  induction entries with
  | nil =>
    intro best _
    refine ⟨best, rfl, fun hr => ⟨hr, by simp [Selects]⟩,
      fun x q hr => ⟨.inl hr, by simp [Selects], ?_⟩⟩
    intro y q' hy
    rw [hr] at hy
    cases hy
    exact le_refl q
  | cons p rest ih =>
    intro best hlive
    obtain ⟨k, s⟩ := p
    have hrest : ∀ p ∈ rest, m.arena.live p.2 = true :=
      fun p hp => hlive p (List.mem_cons_of_mem _ hp)
    -- the scanned slot holds an entry of the list, whose value and stamp the walk reads
    obtain ⟨es, hes, hslot⟩ := hc.mem_of_live (hlive (k, s) List.mem_cons_self)
    subst hslot
    have hval := h.value?_live hes
    have hseq := h.seq?_live hes
    -- the head selects only its own entry, and that exactly when `cond` accepts it
    have hhead : ∀ e ∈ m.arena.view.entries, Selects cond ((k, es.slot) :: rest) e →
        (e = es ∧ cond k es.value = true) ∨ Selects cond rest e := by
      intro e he hsel
      rcases selects_cons.mp hsel with ⟨hs, hck⟩ | hsel
      · obtain rfl := List.inj_on_of_nodup_map hc.describes.nodup he hes hs.symm
        exact .inl ⟨rfl, hck⟩
      · exact .inr hsel
    by_cases hcond : cond k es.value = true
    · obtain ⟨y, q', hpick, hfrom, hq, hbest⟩ := pickNewer_spec best es.slot es.seq
      obtain ⟨r, hgo, hnone, hsome⟩ := ih (some (y, q')) hrest
      refine ⟨r, ?_, fun hr => ?_, fun x q hr => ?_⟩
      · simp [mostRecentAmong.go, hval, hseq, hcond, hpick, hgo, bind, Except.bind]
      · cases (hnone hr).1
      · obtain ⟨hx, hsel, hmax⟩ := hsome x q hr
        have hq' : q' ≤ q := hmax y q' rfl
        refine ⟨?_, fun e he hsel' => ?_, fun z r' hz => Nat.le_trans (hbest z r' hz) hq'⟩
        · rcases hx with hx | ⟨e, he, hex, heq, hsel'⟩
          · -- the walk ended with the better of the best so far and the head
            cases hx
            rcases hfrom with hfrom | ⟨rfl, rfl⟩
            · exact .inl hfrom
            · exact .inr ⟨es, hes, rfl, rfl, selects_cons.mpr (.inl ⟨rfl, hcond⟩)⟩
          · exact .inr ⟨e, he, hex, heq, selects_cons.mpr (.inr hsel')⟩
        · rcases hhead e he hsel' with ⟨rfl, -⟩ | hsel'
          · exact Nat.le_trans hq hq'
          · exact hsel e he hsel'
    · obtain ⟨r, hgo, hnone, hsome⟩ := ih best hrest
      refine ⟨r, ?_, fun hr => ⟨(hnone hr).1, fun e he hsel' => ?_⟩, fun x q hr => ?_⟩
      · simp [mostRecentAmong.go, hval, hcond, hgo, bind, Except.bind]
      · rcases hhead e he hsel' with ⟨-, hck⟩ | hsel'
        · exact hcond hck
        · exact (hnone hr).2 e he hsel'
      · obtain ⟨hx, hsel, hmax⟩ := hsome x q hr
        refine ⟨?_, fun e he hsel' => ?_, hmax⟩
        · rcases hx with hx | ⟨e, he, hex, heq, hsel'⟩
          · exact .inl hx
          · exact .inr ⟨e, he, hex, heq, selects_cons.mpr (.inr hsel')⟩
        · rcases hhead e he hsel' with ⟨-, hck⟩ | hsel'
          · exact absurd hck hcond
          · exact hsel e he hsel'

/-- Among scanned live slots of a consistent map, the most recent one whose entry satisfies
`cond` is the slot of the first entry of the recency list that the scan selects: one scanned
under a key that, with the entry's value, satisfies `cond`. -/
theorem Consistent.mostRecentAmong_eq_find? (hc : m.Consistent) (cond : κ → ν → Bool)
    {entries : List (κ × Slot)} (hlive : ∀ p ∈ entries, m.arena.live p.2 = true) :
    m.mostRecentAmong cond entries = .ok ((m.arena.view.entries.find? fun e =>
      entries.any fun p => p.2 == e.slot && cond p.1 e.value).map Recency.Entry.slot) := by
  obtain ⟨r, hgo, hnone, hsome⟩ := hc.mostRecentAmong_go cond entries none hlive
  have hsel : ∀ e : Recency.Entry κ ν, (entries.any fun p => p.2 == e.slot && cond p.1 e.value) =
      true ↔ Selects cond entries e := by
    intro e
    simp [Selects]
  simp only [mostRecentAmong, hgo, Functor.map, Except.map]
  congr 1
  cases r with
  | none =>
    -- nothing was selected, so no entry of the list is
    rw [(List.find?_eq_none).mpr]
    · rfl
    intro e he hfound
    exact (hnone rfl).2 e he ((hsel e).mp hfound)
  | some b =>
    obtain ⟨x, q⟩ := b
    obtain ⟨hx, hmax, -⟩ := hsome x q rfl
    obtain ⟨ex, hex, hexs, hexq, hexsel⟩ := hx.resolve_left (by simp)
    -- the first selected entry has a stamp no lower than the winner's, hence it is the winner
    have hfound : (m.arena.view.entries.find? fun e =>
        entries.any fun p => p.2 == e.slot && cond p.1 e.value).isSome :=
      List.find?_isSome.mpr ⟨ex, hex, (hsel ex).mpr hexsel⟩
    obtain ⟨e, hfind⟩ := Option.isSome_iff_exists.mp hfound
    obtain ⟨he, as, bs, hsplit, hbefore⟩ := List.find?_eq_some_iff_append.mp hfind
    have hpair := hc.seq_pairwise
    rw [hsplit, List.pairwise_append, List.pairwise_cons] at hpair
    have hex' := hex
    rw [hsplit, List.mem_append, List.mem_cons] at hex'
    have heq : e = ex := by
      rcases hex' with hin | rfl | hin
      · have := hbefore ex hin
        rw [(hsel ex).mpr hexsel] at this
        cases this
      · rfl
      · have hlt : ex.seq < e.seq := hpair.2.1.1 ex hin
        have hle : e.seq ≤ q := hmax e (by rw [hsplit]; simp) ((hsel e).mp he)
        omega
    rw [hfind, heq]
    simp [hexs]

/-- On a consistent map over a search tree, the most recent of the entries a scan of `r` visits
whose keys satisfy `cond` is the first entry of the recency list stored under a key in `r` that
satisfies `cond`. -/
theorem Consistent.mostRecentAmong_inTree (hc : m.Consistent) {cmp : κ → κ → Ordering}
    {t : Std.TreeMap κ Slot cmp} (hix : m.index = .ordered cmp t) (r : KeyRange κ)
    (cond : κ → ν → Bool) :
    m.index.scan? r = some (r.inTree t) ∧
      m.mostRecentAmong cond (r.inTree t) =
        .ok ((m.arena.view.entries.find? (·.storedIn t r cond)).map Recency.Entry.slot) := by
  have hscan : m.index.scan? r = some (r.inTree t) := by
    rw [hix]
    rfl
  have hlaw : Std.TransCmp cmp := by
    have hl := hc.describes.lawful
    rw [hix] at hl
    exact hl
  refine ⟨hscan, ?_⟩
  rw [hc.mostRecentAmong_eq_find? cond (hc.scan_live hscan), KeyRange.inTree_eq_filter]
  simp only [List.any_filter]
  rfl

end Lru

/-! ## Values of scanned entries -/

section Values

variable {ε α β : Type}

/-- A run of `mapM` that succeeds succeeds on every prefix of the list too, with the prefix of
its results. -/
theorem mapM_take_of_ok {f : α → Except ε β} {l : List α} {bs : List β}
    (h : l.mapM f = .ok bs) (n : Nat) : (l.take n).mapM f = .ok (bs.take n) := by
  induction l generalizing n bs with
  | nil =>
    cases h
    cases n <;> rfl
  | cons a rest ih =>
    rw [List.mapM_cons] at h
    cases hfa : f a with
    | error e => simp [hfa, bind, Except.bind] at h
    | ok b =>
      cases hrest : rest.mapM f with
      | error e => simp [hfa, hrest, bind, Except.bind] at h
      | ok bs' =>
        simp [hfa, hrest, bind, Except.bind, pure, Except.pure] at h
        subst h
        cases n with
        | zero => rfl
        | succ n => simp [List.mapM_cons, hfa, ih hrest n, bind, Except.bind, pure, Except.pure]

end Values

namespace Lru

variable {κ ν : Type} [BEq κ] [Hashable κ] {m : Lru (SomeIndex κ) κ ν}

/-- On a consistent map, reading the values of keys found at their slots succeeds: it gives the
keys in their order, each with the value its entry holds now, and every key of the list is
read from its own slot. -/
theorem Consistent.valuesAmong_found (hc : m.Consistent) {l : List (κ × Slot)}
    (hl : ∀ p ∈ l, m.find? p.1 = some p.2) :
    ∃ ps, m.valuesAmong l = .ok ps ∧ ps.map Prod.fst = l.map Prod.fst ∧
      (∀ q ∈ ps, m.peek q.1 = .ok (some q.2)) ∧
      ∀ p ∈ l, ∃ q ∈ ps, q.1 = p.1 ∧ m.arena.value? p.2 = .ok q.2 := by
  obtain ⟨order, h⟩ := hc.shape
  induction l with
  | nil => exact ⟨[], rfl, rfl, by simp, by simp⟩
  | cons p rest ih =>
    obtain ⟨ps, hps, hkeys, hpeek, hfound⟩ := ih fun q hq => hl q (List.mem_cons_of_mem _ hq)
    -- the slot a key is found at is the slot of an entry whose key the index takes for it
    obtain ⟨e, he, hslot, hk⟩ := hc.describes.entry_of_find p.1 p.2 (hl p List.mem_cons_self)
    have hval : m.arena.value? p.2 = .ok e.value := hslot ▸ h.value?_live he
    refine ⟨(p.1, e.value) :: ps, ?_, by simp [hkeys], ?_, ?_⟩
    · obtain ⟨k, s⟩ := p
      unfold valuesAmong at hps ⊢
      rw [List.mapM_cons, hps]
      simp only at hval ⊢
      rw [hval]
      rfl
    · simp only [List.mem_cons, forall_eq_or_imp]
      exact ⟨hc.peek_found he hk, hpeek⟩
    · simp only [List.mem_cons, forall_eq_or_imp]
      exact ⟨⟨(p.1, e.value), .inl rfl, rfl, hval⟩,
        fun q hq => (hfound q hq).imp fun x hx => ⟨.inr hx.1, hx.2⟩⟩

/-- On a consistent map over a search tree, a scan of `r` visits the slot of every entry whose
key lies in `r`, under the key the tree stores for it, which the comparator takes for the
entry's own. -/
theorem Consistent.mem_inTree (hc : m.Consistent) {cmp : κ → κ → Ordering}
    {t : Std.TreeMap κ Slot cmp} (hix : m.index = .ordered cmp t) (r : KeyRange κ)
    {e : Recency.Entry κ ν} (he : e ∈ m.arena.view.entries) (hin : r.contains cmp e.key = true) :
    ∃ k', cmp e.key k' = .eq ∧ (k', e.slot) ∈ r.inTree t := by
  have hlaw : Std.TransCmp cmp := by
    have hl := hc.describes.lawful
    rw [hix] at hl
    exact hl
  have hfind := hc.describes.find_entry e he
  rw [hix] at hfind
  obtain ⟨k', hk', hmem⟩ :=
    Std.TreeMap.getElem?_eq_some_iff_exists_compare_eq_eq_and_mem_toList.mp hfind
  refine ⟨k', hk', ?_⟩
  rw [KeyRange.inTree_eq_filter, List.mem_filter]
  exact ⟨hmem, (KeyRange.contains_congr r hk').symm.trans hin⟩

end Lru

end RecencyMap
