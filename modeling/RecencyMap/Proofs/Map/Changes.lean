import RecencyMap.Proofs.Map.Naive
import RecencyMap.Proofs.Map.Cursors
import RecencyMap.Session.Events

/-!
# Structural changes and what each operation reports

The documentation of a map counts its structural changes: an entry comes to the front (it is
inserted, or used by a push or a read of its key, or touched through a cursor), or an entry is
removed. Every change bumps the generation by one, and an entry's stamp is the generation at
which it last came to the front, so its age is the number of changes since.

This file names the operations a map performs (`MapOp`), with the changes each makes and the
signals each reports to the observers, read off the map right after it. `Lru.Performs` says that
one operation, done on a consistent map, leaves the map its documentation describes, and
`Lru.Passes` chains operations. `Stamped` relates the stamps after some changes to the changes.

The main facts: each operation of a consistent map performs as documented
(`Consistent.push_performs`, `get_performs`, `take_performs`, `touch_performs`), and so do the
operations built from them (`extend_passes`, `drain_passes`).
-/

namespace RecencyMap

/-- A structural change of a map: an entry whose key is `key` came to the front, or was
removed. -/
inductive Change (κ : Type) where
  | front (key : κ)
  | removed (key : κ)

namespace Change

variable {κ : Type}

/-- Whether the change brought an entry to the front under a key that `eqv` takes for `k`. -/
def brings (eqv : κ → κ → Bool) (k : κ) : Change κ → Bool
  | .front k' => eqv k k'
  | .removed _ => false

/-- Changes that only remove never bring a key to the front. -/
theorem any_brings_of_removals {cs : List (Change κ)} (hcs : ∀ c ∈ cs, ∃ k, c = .removed k)
    (eqv : κ → κ → Bool) (k : κ) : (cs.any fun c => c.brings eqv k) = false := by
  rw [List.any_eq_false]
  intro c hc
  obtain ⟨k', rfl⟩ := hcs c hc
  simp [brings]

end Change

/-- The age of `k` after the changes `cs`, counting on from `n`: reset to zero by a change that
brings `k` to the front, one more for every other change. -/
def ageFrom {κ : Type} (eqv : κ → κ → Bool) (k : κ) (n : Nat) : List (Change κ) → Nat
  | [] => n
  | c :: cs => ageFrom eqv k (if c.brings eqv k then 0 else n + 1) cs

section Age

variable {κ : Type} (eqv : κ → κ → Bool) (k : κ)

theorem ageFrom_append (n : Nat) (cs ds : List (Change κ)) :
    ageFrom eqv k n (cs ++ ds) = ageFrom eqv k (ageFrom eqv k n cs) ds := by
  induction cs generalizing n with
  | nil => rfl
  | cons c cs ih => exact ih _

/-- Changes that never bring `k` to the front each add one to its age. -/
theorem ageFrom_of_all {cs : List (Change κ)} (h : (cs.any fun c => c.brings eqv k) = false)
    (n : Nat) : ageFrom eqv k n cs = n + cs.length := by
  induction cs generalizing n with
  | nil => rfl
  | cons c cs ih =>
    simp only [List.any_cons, Bool.or_eq_false_iff] at h
    simp only [ageFrom, h.1, Bool.false_eq_true, if_false, ih h.2, List.length_cons]
    omega

/-- Once some change brings `k` to the front, where the count started does not matter. -/
theorem ageFrom_of_any {cs : List (Change κ)} (h : (cs.any fun c => c.brings eqv k) = true)
    (n n' : Nat) : ageFrom eqv k n cs = ageFrom eqv k n' cs := by
  induction cs generalizing n n' with
  | nil => cases h
  | cons c cs ih =>
    simp only [List.any_cons, Bool.or_eq_true] at h
    simp only [ageFrom]
    by_cases hc : c.brings eqv k = true
    · simp only [hc, if_true]
    · simp only [hc, Bool.false_eq_true, if_false]
      exact ih (h.resolve_left hc) _ _

/-- Once some change brings `k` to the front, the age of `k` is the number of changes after the
last one that does. -/
theorem ageFrom_eq_after_last {cs : List (Change κ)}
    (h : (cs.any fun c => c.brings eqv k) = true) (n : Nat) :
    ∃ pre c post, cs = pre ++ c :: post ∧ c.brings eqv k = true ∧
      (post.any fun d => d.brings eqv k) = false ∧ ageFrom eqv k n cs = post.length := by
  induction cs generalizing n with
  | nil => cases h
  | cons d ds ih =>
    cases hds : ds.any fun c => c.brings eqv k with
    | true =>
      -- a later change brings `k` again: the last one is in the rest
      obtain ⟨pre, c, post, rfl, hc, hpost, hage⟩ := ih hds (if d.brings eqv k then 0 else n + 1)
      exact ⟨d :: pre, c, post, rfl, hc, hpost, hage⟩
    | false =>
      -- `d` is the last change that brings `k`
      have hd : d.brings eqv k = true := by simpa [hds] using h
      refine ⟨[], d, ds, rfl, hd, hds, ?_⟩
      rw [ageFrom, if_pos hd, ageFrom_of_all eqv k hds, Nat.zero_add]

end Age

/-- One operation a map performs, with its outcome, as the documentation names it. -/
inductive MapOp (κ ν : Type) where
  /-- A push of `key`, with what it displaced. -/
  | push (key : κ) (outcome : Pushed κ ν)
  /-- A read of `key`, which moves its entry to the front when `found`. -/
  | get (key : κ) (found : Bool)
  /-- A touch through a cursor at the entry of `key`. -/
  | touch (key : κ)
  /-- The removal of the entry of `key`: through a cursor, by a locked remove or by a drain. -/
  | take (key : κ)
  /-- The end of a drain that removed `count` entries. -/
  | drained (count : Nat)
  /-- A call of the loader for `key`. -/
  | load (key : κ)

namespace MapOp

variable {κ ν : Type}

/-- The structural changes an operation makes, in order: a push that evicts removes the least
recent entry before the new one comes to the front. -/
def changes : MapOp κ ν → List (Change κ)
  | .push k .fresh => [.front k]
  | .push k (.replaced _ _) => [.front k]
  | .push k (.evicted ek _) => [.removed ek, .front k]
  | .get k true => [.front k]
  | .get _ false => []
  | .touch k => [.front k]
  | .take k => [.removed k]
  | .drained _ => []
  | .load _ => []

/-- The number of entries after an operation, from the number before. -/
def sizeAfter (n : Nat) : MapOp κ ν → Nat
  | .push _ .fresh => n + 1
  | .take _ => n - 1
  | _ => n

/-- What an operation reports to the observers, with `n` entries and generation `g` right after
it: a push of a present key is a replacement; a push of a new key reports the size, and an
eviction after it; a read reports a hit or a miss; a removal reports the size; a drain that
removed anything reports how many it removed and how many remain. -/
def signals (n g : Nat) : MapOp κ ν → List (Signal κ ν)
  | .push _ .fresh => [.resized n]
  | .push _ (.replaced _ _) => [.replaced]
  | .push _ (.evicted ek ev) => [.resized n, .evicted ek ev n g]
  | .get _ true => [.hit]
  | .get _ false => [.miss]
  | .touch _ => []
  | .take _ => [.resized n]
  | .drained c => if c = 0 then [] else [.drained c n]
  | .load _ => []

/-- What the observers see of an operation: the events of its signals, or the loader's call. -/
def events (obs : Observers) (n g : Nat) : MapOp κ ν → List (Event κ ν)
  | .load k => [.load k]
  | op => (op.signals n g).flatMap obs.events

/-- The signals of operations done one after another from `n` entries and generation `g`. -/
def signalsFrom : Nat → Nat → List (MapOp κ ν) → List (Signal κ ν)
  | _, _, [] => []
  | n, g, op :: ops =>
    op.signals (op.sizeAfter n) (g + op.changes.length) ++
      signalsFrom (op.sizeAfter n) (g + op.changes.length) ops

/-- The events of operations done one after another from `n` entries and generation `g`. -/
def eventsFrom (obs : Observers) : Nat → Nat → List (MapOp κ ν) → List (Event κ ν)
  | _, _, [] => []
  | n, g, op :: ops =>
    op.events obs (op.sizeAfter n) (g + op.changes.length) ++
      eventsFrom obs (op.sizeAfter n) (g + op.changes.length) ops

/-- Without calls of the loader, what the observers see of some operations is the events of
their signals. -/
theorem eventsFrom_eq_flatMap (obs : Observers) {ops : List (MapOp κ ν)}
    (h : ∀ op ∈ ops, ∀ k, op ≠ .load k) (n g : Nat) :
    eventsFrom obs n g ops = (signalsFrom n g ops).flatMap obs.events := by
  induction ops generalizing n g with
  | nil => rfl
  | cons op ops ih =>
    have hop : op.events obs (op.sizeAfter n) (g + op.changes.length) =
        (op.signals (op.sizeAfter n) (g + op.changes.length)).flatMap obs.events := by
      cases op with
      | load k => exact absurd rfl (h _ List.mem_cons_self k)
      | _ => rfl
    rw [eventsFrom, signalsFrom, hop, ih (fun op' h' => h op' (List.mem_cons_of_mem _ h')),
      List.flatMap_append]

end MapOp

/-- The operations of an extension: each pair pushed, with what the push displaced, on the
pairs the earlier pushes left. -/
def Naive.extendOps {κ ν : Type} (eqv : κ → κ → Bool) (cap : Nat) :
    List (κ × ν) → List (κ × ν) → List (MapOp κ ν)
  | _, [] => []
  | ps, (k, v) :: rest =>
    .push k (Naive.push eqv cap ps k v).1 :: extendOps eqv cap (Naive.push eqv cap ps k v).2 rest

/-- The operations of a drain: the removal of each pair taken out, then the drain's end. -/
def Naive.drainOps {κ ν : Type} (ps : List (κ × ν)) (limit : Option Nat) : List (MapOp κ ν) :=
  ((Naive.drain ps limit).1.map fun p => .take p.1) ++ [.drained (Naive.drain ps limit).1.length]

/-- An extension only pushes. -/
theorem Naive.extendOps_push {κ ν : Type} (eqv : κ → κ → Bool) (cap : Nat)
    (ps pairs : List (κ × ν)) : ∀ op ∈ extendOps eqv cap ps pairs, ∃ k p, op = .push k p := by
  induction pairs generalizing ps with
  | nil => simp [extendOps]
  | cons q rest ih =>
    obtain ⟨k, v⟩ := q
    intro op hop
    rcases List.mem_cons.mp hop with rfl | hop
    · exact ⟨k, _, rfl⟩
    · exact ih _ op hop

/-- A drain only removes, then reports. -/
theorem Naive.drainOps_take {κ ν : Type} (ps : List (κ × ν)) (limit : Option Nat) :
    ∀ op ∈ drainOps ps limit, (∃ k, op = .take k) ∨ ∃ c, op = .drained c := by
  intro op hop
  rcases List.mem_append.mp hop with hop | hop
  · obtain ⟨p, -, rfl⟩ := List.mem_map.mp hop
    exact Or.inl ⟨p.1, rfl⟩
  · exact Or.inr ⟨_, List.mem_singleton.mp hop⟩

/-! ## What each operation reports, on any map -/

namespace Lru

variable {ι κ ν : Type} [KeyIndex ι κ]

theorem push_eq_ok {m m' : Lru ι κ ν} {k : κ} {v : ν} {p : Pushed κ ν} {sigs : List (Signal κ ν)}
    (h : m.push k v = .ok (p, m', sigs)) :
    sigs = (MapOp.push k p).signals m'.size m'.generation ∧
      m'.generation = m.generation + (MapOp.push k p : MapOp κ ν).changes.length := by
  obtain ⟨a, ix⟩ := m
  dsimp only [push] at h
  split at h
  · next s _ =>
    cases hr : a.replace s v with
    | error e => simp [hr, bind, Except.bind] at h
    | ok r =>
      obtain ⟨old, a1⟩ := r
      cases hm : a1.moveToHead s with
      | error e => simp [hr, hm, bind, Except.bind] at h
      | ok a2 =>
        simp only [hr, hm, bind, Except.bind, pure, Except.pure, Except.ok.injEq,
          Prod.mk.injEq] at h
        obtain ⟨rfl, rfl, rfl⟩ := h
        have h1 := (Arena.replace_frame hr).2
        have h2 := (Arena.moveToHead_frame hm).2
        refine ⟨rfl, ?_⟩
        simp [generation, MapOp.changes, h1, h2]
  · -- a new key: an eviction when full, then the insertion
    cases hfull : a.isFull with
    | true =>
      cases hev : a.evictTail with
      | error e => simp [hfull, hev, bind, Except.bind] at h
      | ok r =>
        obtain ⟨⟨ek, ev⟩, a1⟩ := r
        cases hi : a1.insertAtHead k v with
        | error e => simp [hfull, hev, hi, bind, Except.bind, pure, Except.pure] at h
        | ok r =>
          obtain ⟨s, a2⟩ := r
          simp only [hfull, hev, hi, if_true, bind, Except.bind, pure, Except.pure,
            Except.ok.injEq, Prod.mk.injEq] at h
          obtain ⟨rfl, rfl, rfl⟩ := h
          have h1 := (Arena.evictTail_frame hev).2
          have h2 := (Arena.insertAtHead_frame hi).2
          refine ⟨rfl, ?_⟩
          simp [generation, MapOp.changes, h1, h2]
    | false =>
      cases hi : a.insertAtHead k v with
      | error e => simp [hfull, hi, bind, Except.bind, pure, Except.pure] at h
      | ok r =>
        obtain ⟨s, a2⟩ := r
        simp only [hfull, hi, Bool.false_eq_true, if_false, bind, Except.bind, pure, Except.pure,
          Except.ok.injEq, Prod.mk.injEq] at h
        obtain ⟨rfl, rfl, rfl⟩ := h
        have h2 := (Arena.insertAtHead_frame hi).2
        refine ⟨rfl, ?_⟩
        simp [generation, MapOp.changes, h2]

theorem get_eq_ok {m m' : Lru ι κ ν} {k : κ} {r : Option ν} {sigs : List (Signal κ ν)}
    (h : m.get k = .ok (r, m', sigs)) :
    sigs = (MapOp.get k r.isSome : MapOp κ ν).signals m'.size m'.generation ∧
      m'.generation = m.generation + (MapOp.get k r.isSome : MapOp κ ν).changes.length ∧
      (r = none → m' = m) := by
  obtain ⟨a, ix⟩ := m
  dsimp only [get] at h
  split at h
  · simp only [Except.ok.injEq, Prod.mk.injEq] at h
    obtain ⟨rfl, rfl, rfl⟩ := h
    exact ⟨rfl, rfl, fun _ => rfl⟩
  · next s _ =>
    cases hm : a.moveToHead s with
    | error e => simp [hm, bind, Except.bind] at h
    | ok a1 =>
      cases hv : a1.value? s with
      | error e => simp [hm, hv, bind, Except.bind] at h
      | ok v =>
        simp only [hm, hv, bind, Except.bind, pure, Except.pure, Except.ok.injEq,
          Prod.mk.injEq] at h
        obtain ⟨rfl, rfl, rfl⟩ := h
        have h1 := (Arena.moveToHead_frame hm).2
        refine ⟨rfl, ?_, fun h => by cases h⟩
        simp [generation, MapOp.changes, h1]

theorem take_eq_ok {m m' : Lru ι κ ν} {s : Slot} {r : Arena.Removal κ ν}
    {sigs : List (Signal κ ν)} (h : m.take s = .ok (r, m', sigs)) :
    sigs = (MapOp.take r.key : MapOp κ ν).signals m'.size m'.generation ∧
      m'.generation = m.generation + (MapOp.take r.key : MapOp κ ν).changes.length := by
  obtain ⟨a, ix⟩ := m
  cases hr : a.remove s with
  | error e => simp [take, hr, bind, Except.bind] at h
  | ok p =>
    obtain ⟨r1, a1⟩ := p
    simp only [take, hr, bind, Except.bind, pure, Except.pure, Except.ok.injEq,
      Prod.mk.injEq] at h
    obtain ⟨rfl, rfl, rfl⟩ := h
    refine ⟨rfl, ?_⟩
    simp [generation, MapOp.changes, (Arena.remove_frame hr).2]

end Lru

namespace Cursor

variable {ι κ ν : Type}

theorem touch_eq_ok {c c' : Cursor} {m m' : Lru ι κ ν} (h : c.touch m = .ok (c', m')) :
    c' = { c with stamp := m'.generation } ∧ m'.generation = m.generation + 1 ∧
      m'.index = m.index := by
  obtain ⟨a, ix⟩ := m
  cases hm : a.moveToHead c.slot with
  | error e => simp [touch, onSlot, hm, bind, Except.bind, Except.mapError] at h
  | ok a1 =>
    simp only [touch, onSlot, hm, Except.mapError, bind, Except.bind, pure, Except.pure,
      Except.ok.injEq, Prod.mk.injEq] at h
    obtain ⟨rfl, rfl⟩ := h
    exact ⟨rfl, (Arena.moveToHead_frame hm).2, rfl⟩

end Cursor

/-! ## Stamps after a run of changes -/

namespace Lru

variable {κ ν : Type} [BEq κ] [Hashable κ]

/-- The stamps of `m'` account for the changes `cs` made since `m`: an entry of `m'` whose key
some change brought to the front is stamped as many changes before the generation as came
after the last such change, and any other entry of `m'` is an entry of `m`, in the same slot
and with the same key and stamp. -/
def Stamped (m m' : Lru (SomeIndex κ) κ ν) (cs : List (Change κ)) : Prop :=
  ∀ e' ∈ m'.arena.view.entries,
    ((cs.any fun c => c.brings m.index.eqv e'.key) = true ∧
      e'.seq + ageFrom m.index.eqv e'.key 0 cs = m'.generation) ∨
    ((cs.any fun c => c.brings m.index.eqv e'.key) = false ∧
      ∃ e ∈ m.arena.view.entries, e.slot = e'.slot ∧ e.key = e'.key ∧ e.seq = e'.seq)

theorem Stamped.refl (m : Lru (SomeIndex κ) κ ν) : m.Stamped m [] :=
  fun e he => Or.inr ⟨rfl, e, he, rfl, rfl, rfl⟩

/-- Stamps accounted for in two stretches are accounted for over both: an entry brought to the
front in the second stretch is dated by it alone; an entry the second stretch kept ages by the
length of the second stretch. -/
theorem Stamped.trans {m1 m2 m3 : Lru (SomeIndex κ) κ ν} {cs ds : List (Change κ)}
    (h1 : m1.Stamped m2 cs) (h2 : m2.Stamped m3 ds) (heqv : m2.index.eqv = m1.index.eqv)
    (hgen : m3.generation = m2.generation + ds.length) : m1.Stamped m3 (cs ++ ds) := by
  intro e3 he3
  have h23 := h2 e3 he3
  rw [heqv] at h23
  rcases h23 with ⟨hany, hage⟩ | ⟨hnone, e2, he2, hslot, hkey, hseq⟩
  · left
    refine ⟨by simp [List.any_append, hany], ?_⟩
    rw [ageFrom_append, ageFrom_of_any _ _ hany _ 0]
    exact hage
  · rcases h1 e2 he2 with ⟨hany1, hage1⟩ | ⟨hnone1, e1, he1, hslot1, hkey1, hseq1⟩
    · -- brought forward in the first stretch, then kept through the second
      rw [hkey] at hany1 hage1
      left
      refine ⟨by simp [List.any_append, hany1], ?_⟩
      rw [ageFrom_append, ageFrom_of_all _ _ hnone, hgen, ← hage1, ← hseq]
      omega
    · right
      rw [hkey] at hnone1
      refine ⟨by simp [List.any_append, hnone, hnone1], e1, he1, ?_, ?_, ?_⟩ <;>
        simp only [hslot1, hslot, hkey1, hkey, hseq1, hseq]

/-- After removals the entries left are old ones, with their stamps. -/
theorem stamped_of_removals {m m' : Lru (SomeIndex κ) κ ν} {cs : List (Change κ)}
    (hcs : ∀ c ∈ cs, ∃ k, c = .removed k)
    (hsub : ∀ x ∈ m'.arena.view.entries, x ∈ m.arena.view.entries) : m.Stamped m' cs :=
  fun x hx => Or.inr ⟨Change.any_brings_of_removals hcs _ _, x, hsub x hx, rfl, rfl, rfl⟩

/-- After removals and then one change bringing `k` to the front, the front entry is the one
of `k`, stamped with the generation, and the others are old entries under other keys. -/
theorem stamped_front {m m' : Lru (SomeIndex κ) κ ν} (pre : List (Change κ)) {k : κ}
    {e' : Recency.Entry κ ν} {rest : List (Recency.Entry κ ν)}
    (hpre : ∀ c ∈ pre, ∃ k, c = .removed k) (hes : m'.arena.view.entries = e' :: rest)
    (hkey : m.index.eqv e'.key k = true) (hseq : e'.seq = m'.generation)
    (hrest : ∀ x ∈ rest, x ∈ m.arena.view.entries ∧ m.index.eqv x.key k = false) :
    m.Stamped m' (pre ++ [.front k]) := by
  intro x hx
  rw [hes] at hx
  rcases List.mem_cons.mp hx with rfl | hx
  · left
    refine ⟨by simp [List.any_append, Change.brings, hkey], ?_⟩
    simp [ageFrom_append, ageFrom, Change.brings, hkey, hseq]
  · obtain ⟨hxm, hxk⟩ := hrest x hx
    right
    refine ⟨?_, x, hxm, rfl, rfl, rfl⟩
    rw [List.any_append, Change.any_brings_of_removals hpre]
    simp [Change.brings, hxk]

end Lru
/-! ## Operations performed as documented -/

namespace Lru

variable {κ ν : Type} [BEq κ] [Hashable κ]

/-- `op`, done on `m`, leaves `m'` as its documentation says: a consistent map with the same
capacity and keys, the size the operation leads to, the generation raised by its changes, the
stamps those changes account for, nothing changed when it makes no change, and the key an
eviction reports already gone. -/
structure Performs (m : Lru (SomeIndex κ) κ ν) (op : MapOp κ ν) (m' : Lru (SomeIndex κ) κ ν) :
    Prop where
  consistent : m'.Consistent
  capacity_eq : m'.capacity = m.capacity
  eqv_eq : m'.index.eqv = m.index.eqv
  size_eq : m'.size = op.sizeAfter m.size
  generation_eq : m'.generation = m.generation + op.changes.length
  stamped : m.Stamped m' op.changes
  same : op.changes = [] → m' = m
  evicted_absent : ∀ k ek ev, op = .push k (.evicted ek ev) → m'.find? ek = none

/-- Operations done one after another, each as documented. -/
inductive Passes : Lru (SomeIndex κ) κ ν → List (MapOp κ ν) → Lru (SomeIndex κ) κ ν → Prop
  | nil (m : Lru (SomeIndex κ) κ ν) : Passes m [] m
  | cons {m m1 m2 : Lru (SomeIndex κ) κ ν} {op : MapOp κ ν} {ops : List (MapOp κ ν)} :
      m.Performs op m1 → Passes m1 ops m2 → Passes m (op :: ops) m2

/-- An operation that changes nothing, on a consistent map, leaves it. -/
theorem Consistent.performs_self {m : Lru (SomeIndex κ) κ ν} (hc : m.Consistent) {op : MapOp κ ν}
    (hch : op.changes = []) (hsize : op.sizeAfter m.size = m.size)
    (hev : ∀ k ek ev, op ≠ .push k (.evicted ek ev)) : m.Performs op m where
  consistent := hc
  capacity_eq := rfl
  eqv_eq := rfl
  size_eq := hsize.symm
  generation_eq := by simp [hch]
  stamped := by
    rw [hch]
    exact Stamped.refl m
  same _ := rfl
  evicted_absent k ek ev h := absurd h (hev k ek ev)

namespace Passes

variable {m m' : Lru (SomeIndex κ) κ ν} {ops : List (MapOp κ ν)}

theorem single {op : MapOp κ ν} (h : m.Performs op m') : Passes m [op] m' :=
  .cons h (.nil m')

theorem append {m1 : Lru (SomeIndex κ) κ ν} {ops' : List (MapOp κ ν)} (h : Passes m ops m1)
    (h' : Passes m1 ops' m') : Passes m (ops ++ ops') m' := by
  induction h with
  | nil => exact h'
  | cons hop _ ih => exact .cons hop (ih h')

theorem consistent (h : Passes m ops m') (hc : m.Consistent) : m'.Consistent := by
  induction h with
  | nil => exact hc
  | cons hop _ ih => exact ih hop.consistent

theorem capacity_eq (h : Passes m ops m') : m'.capacity = m.capacity := by
  induction h with
  | nil => rfl
  | cons hop _ ih => rw [ih, hop.capacity_eq]

theorem eqv_eq (h : Passes m ops m') : m'.index.eqv = m.index.eqv := by
  induction h with
  | nil => rfl
  | cons hop _ ih => rw [ih, hop.eqv_eq]

/-- The generation counts the changes of all the operations. -/
theorem generation_eq (h : Passes m ops m') :
    m'.generation = m.generation + (ops.flatMap MapOp.changes).length := by
  induction h with
  | nil => rfl
  | cons hop _ ih =>
    rw [ih, hop.generation_eq, List.flatMap_cons, List.length_append]
    omega

theorem stamped (h : Passes m ops m') : m.Stamped m' (ops.flatMap MapOp.changes) := by
  induction h with
  | nil => exact Stamped.refl _
  | cons hop hrest ih =>
    rw [List.flatMap_cons]
    exact hop.stamped.trans ih hop.eqv_eq hrest.generation_eq

/-- Operations that make no change leave the map. -/
theorem eq_of_changes (h : Passes m ops m') (hch : ops.flatMap MapOp.changes = []) : m' = m := by
  induction h with
  | nil => rfl
  | cons hop _ ih =>
    rw [List.flatMap_cons, List.append_eq_nil_iff] at hch
    rw [ih hch.2, hop.same hch.1]

/-- The signals of operations in two stretches are those of each, the second counted from
the map the first leaves. -/
theorem signalsFrom_append {m1 : Lru (SomeIndex κ) κ ν} (h : Passes m ops m1)
    (ops' : List (MapOp κ ν)) :
    MapOp.signalsFrom m.size m.generation (ops ++ ops') =
      MapOp.signalsFrom m.size m.generation ops ++ MapOp.signalsFrom m1.size m1.generation ops' := by
  induction h with
  | nil => rfl
  | cons hop _ ih =>
    rw [List.cons_append, MapOp.signalsFrom, MapOp.signalsFrom, ← hop.size_eq,
      ← hop.generation_eq, ih, List.append_assoc]

theorem eventsFrom_append {m1 : Lru (SomeIndex κ) κ ν} (h : Passes m ops m1) (obs : Observers)
    (ops' : List (MapOp κ ν)) :
    MapOp.eventsFrom obs m.size m.generation (ops ++ ops') =
      MapOp.eventsFrom obs m.size m.generation ops ++
        MapOp.eventsFrom obs m1.size m1.generation ops' := by
  induction h with
  | nil => rfl
  | cons hop _ ih =>
    rw [List.cons_append, MapOp.eventsFrom, MapOp.eventsFrom, ← hop.size_eq,
      ← hop.generation_eq, ih, List.append_assoc]

end Passes

end Lru
/-! ## Each operation of a consistent map performs as documented -/

namespace Lru

variable {κ ν : Type} [BEq κ] [Hashable κ] {m : Lru (SomeIndex κ) κ ν}

/-- Only the entry the index finds for `k` has a key taken for `k`. -/
theorem Consistent.eqv_eq_false_of_slot_ne (hc : m.Consistent) {e x : Recency.Entry κ ν}
    (he : e ∈ m.arena.view.entries) {k : κ} (hk : m.index.eqv e.key k = true)
    (hx : x ∈ m.arena.view.entries) (hne : x.slot ≠ e.slot) : m.index.eqv x.key k = false := by
  cases hxk : m.index.eqv x.key k with
  | false => rfl
  | true =>
    have hfx := (hc.describes.find?_eq_some_iff k x.slot).mpr ⟨x, hx, rfl, hxk⟩
    have hfe := (hc.describes.find?_eq_some_iff k e.slot).mpr ⟨e, he, rfl, hk⟩
    rw [hfx] at hfe
    exact absurd (Option.some.inj hfe) hne

/-- An entry of `k` moved to the front, stamped with the generation, in front of the others. -/
theorem Consistent.stamped_move (hc : m.Consistent) {e : Recency.Entry κ ν}
    (he : e ∈ m.arena.view.entries) {k : κ} (hk : m.index.eqv e.key k = true)
    {m' : Lru (SomeIndex κ) κ ν} {e' : Recency.Entry κ ν}
    (hes : m'.arena.view.entries = e' :: m.arena.view.entries.filter fun x => x.slot != e.slot)
    (hkey : e'.key = e.key) (hseq : e'.seq = m'.generation) : m.Stamped m' [.front k] := by
  refine stamped_front [] (by simp) hes (by rw [hkey]; exact hk) hseq fun x hx => ?_
  obtain ⟨hxm, hxs⟩ := Recency.mem_others.mp hx
  exact ⟨hxm, hc.eqv_eq_false_of_slot_ne he hk hxm hxs⟩

/-- Moving an entry to the front keeps the number of entries. -/
theorem Consistent.length_move (hc : m.Consistent) {e e' : Recency.Entry κ ν}
    (he : e ∈ m.arena.view.entries) :
    (e' :: m.arena.view.entries.filter fun x => x.slot != e.slot).length = m.size := by
  rw [List.length_cons, Recency.length_others hc.describes.nodup he, hc.size_eq]

/-- A push performs as documented: it displaces what the model's push displaces and leaves the
model's pairs. -/
theorem Consistent.push_performs (hc : m.Consistent) (hcap : 0 < m.capacity) (k : κ) (v : ν) :
    ∃ m', m.push k v = .ok ((Naive.push m.index.eqv m.capacity m.toList k v).1, m',
        (MapOp.push k (Naive.push m.index.eqv m.capacity m.toList k v).1).signals m'.size
          m'.generation) ∧
      m.Performs (.push k (Naive.push m.index.eqv m.capacity m.toList k v).1) m' ∧
      m'.toList = (Naive.push m.index.eqv m.capacity m.toList k v).2 := by
  rw [toList_eq]
  rcases hc.lookup k with ⟨e, he, hk, -, hn, hd⟩ | ⟨hfind, hn, -⟩
  · -- a present key: its entry takes the value and moves to the front
    obtain ⟨m', sigs, hpush, hf⟩ := hc.push_found he hk v
    obtain ⟨hsigs, hgen⟩ := push_eq_ok hpush
    have hnaive : Naive.push m.index.eqv m.capacity (m.arena.view.entries.map Recency.Entry.pair)
        k v = (.replaced k e.value, (e.key, v) ::
          (m.arena.view.entries.filter fun x => x.slot != e.slot).map Recency.Entry.pair) := by
      simp [Naive.push, hn, hd, Recency.Entry.pair]
    rw [hnaive]
    refine ⟨m', by rw [hpush, ← hsigs], ⟨hf.consistent, hf.capacity_eq, hf.eqv_eq, ?_, hgen, ?_,
      by simp [MapOp.changes], by simp⟩, by rw [toList_eq, hf.entries_eq]; rfl⟩
    · rw [hf.consistent.size_eq, hf.entries_eq, hc.length_move he]
      rfl
    · exact hc.stamped_move he hk hf.entries_eq rfl (by rw [hgen]; rfl)
  · have hnone : ∀ x ∈ m.arena.view.entries, m.index.eqv x.key k = false :=
      (hc.describes.find?_eq_none_iff k).mp hfind
    by_cases hroom : m.arena.view.entries.length < m.capacity
    · -- a new key with room: a new entry in front
      obtain ⟨s, m', sigs, hpush, hf⟩ := hc.push_room hfind hroom v
      obtain ⟨hsigs, hgen⟩ := push_eq_ok hpush
      have hnaive : Naive.push m.index.eqv m.capacity (m.arena.view.entries.map Recency.Entry.pair)
          k v = (.fresh, (k, v) :: m.arena.view.entries.map Recency.Entry.pair) := by
        simp [Naive.push, hn, hroom]
      rw [hnaive]
      refine ⟨m', by rw [hpush, ← hsigs], ⟨hf.consistent, hf.capacity_eq, hf.eqv_eq, ?_, hgen, ?_,
        by simp [MapOp.changes], by simp⟩, by rw [toList_eq, hf.entries_eq]; rfl⟩
      · rw [hf.consistent.size_eq, hf.entries_eq, hc.size_eq]
        rfl
      · exact stamped_front [] (by simp) hf.entries_eq
          (SomeIndex.eqv_refl hc.describes.lawful k) (by rw [hgen]; rfl) fun x hx => ⟨hx, hnone x hx⟩
    · -- a new key into a full map: the last entry makes room
      have hfull : m.arena.view.entries.length = m.capacity := by
        have hle := hc.length_le
        omega
      have hne : m.arena.view.entries ≠ [] := by
        intro hnil
        rw [hnil, List.length_nil] at hfull
        omega
      obtain ⟨el, hlast⟩ := Option.isSome_iff_exists.mp (List.getLast?_isSome.mpr hne)
      have hel : el ∈ m.arena.view.entries := List.mem_of_getLast? hlast
      obtain ⟨m', sigs, hpush, hf⟩ := hc.push_full hfind hfull hlast v
      obtain ⟨hsigs, hgen⟩ := push_eq_ok hpush
      have hnaive : Naive.push m.index.eqv m.capacity (m.arena.view.entries.map Recency.Entry.pair)
          k v = (.evicted el.key el.value, (k, v) ::
            (m.arena.view.entries.filter fun x => x.slot != el.slot).map Recency.Entry.pair) := by
        rw [Recency.filter_last hc.describes.nodup hlast]
        simp [Naive.push, hn, hroom, hlast, Recency.Entry.pair]
      rw [hnaive]
      refine ⟨m', by rw [hpush, ← hsigs], ⟨hf.consistent, hf.capacity_eq, hf.eqv_eq, ?_, hgen, ?_,
        by simp [MapOp.changes], ?_⟩, by rw [toList_eq, hf.entries_eq]; rfl⟩
      · rw [hf.consistent.size_eq, hf.entries_eq, hc.length_move hel]
        rfl
      · refine stamped_front [.removed el.key] (by simp) hf.entries_eq
          (SomeIndex.eqv_refl hc.describes.lawful k) (by rw [hgen]; rfl) fun x hx => ?_
        exact ⟨(Recency.mem_others.mp hx).1, hnone x (Recency.mem_others.mp hx).1⟩
      · -- the evicted key is no longer found: the new key is another, and so are the rest
        rintro k' ek ev ⟨⟩
        show KeyIndex.find? m'.index el.key = none
        refine (hf.consistent.describes.find?_eq_none_iff el.key).mpr fun x hx => ?_
        rw [hf.eqv_eq]
        rw [hf.entries_eq] at hx
        rcases List.mem_cons.mp hx with rfl | hx
        · cases hx' : m.index.eqv k el.key with
          | false => rfl
          | true =>
            have := hnone el hel
            rw [SomeIndex.eqv_symm hc.describes.lawful hx'] at this
            cases this
        · obtain ⟨hxm, hxs⟩ := Recency.mem_others.mp hx
          exact hc.eqv_eq_false_of_slot_ne hel (SomeIndex.eqv_refl hc.describes.lawful _) hxm hxs

/-- A read performs as documented: a hit moves its entry to the front, a miss changes nothing;
it answers as the model's read and leaves the model's pairs. -/
theorem Consistent.get_performs (hc : m.Consistent) (k : κ) :
    ∃ m', m.get k = .ok ((Naive.get m.index.eqv m.toList k).1, m',
        (MapOp.get k (Naive.get m.index.eqv m.toList k).1.isSome : MapOp κ ν).signals m'.size
          m'.generation) ∧
      m.Performs (.get k (Naive.get m.index.eqv m.toList k).1.isSome) m' ∧
      m'.toList = (Naive.get m.index.eqv m.toList k).2 := by
  rw [toList_eq]
  rcases hc.lookup k with ⟨e, he, hk, -, hn, hd⟩ | ⟨hfind, hn, -⟩
  · obtain ⟨m', sigs, hget, hf⟩ := hc.get_found he hk
    obtain ⟨hsigs, hgen, -⟩ := get_eq_ok hget
    have hnaive : Naive.get m.index.eqv (m.arena.view.entries.map Recency.Entry.pair) k =
        (some e.value, (e.key, e.value) ::
          (m.arena.view.entries.filter fun x => x.slot != e.slot).map Recency.Entry.pair) := by
      simp [Naive.get, hn, hd, Recency.Entry.pair]
    rw [hnaive]
    refine ⟨m', by rw [hget, ← hsigs], ⟨hf.consistent, hf.capacity_eq, hf.eqv_eq, ?_, hgen, ?_,
      by simp [MapOp.changes], by simp⟩, by rw [toList_eq, hf.entries_eq]; rfl⟩
    · rw [hf.consistent.size_eq, hf.entries_eq, hc.length_move he]
      rfl
    · exact hc.stamped_move he hk hf.entries_eq rfl (by rw [hgen]; rfl)
  · have hnaive : Naive.get m.index.eqv (m.arena.view.entries.map Recency.Entry.pair) k =
        (none, m.arena.view.entries.map Recency.Entry.pair) := by
      simp [Naive.get, hn]
    rw [hnaive]
    exact ⟨m, get_missing hfind, hc.performs_self rfl rfl (by simp), toList_eq m⟩

/-- Taking a live entry performs as documented and leaves the other entries. -/
theorem Consistent.take_performs (hc : m.Consistent) {e : Recency.Entry κ ν}
    (he : e ∈ m.arena.view.entries) :
    ∃ m', m.take e.slot =
        .ok ({ key := e.key, value := e.value, next := nextIn m.arena.view.slots e.slot,
               prev := prevIn m.arena.view.slots e.slot }, m',
             (MapOp.take e.key : MapOp κ ν).signals m'.size m'.generation) ∧
      m.Performs (.take e.key) m' ∧
      m'.arena.view.entries = m.arena.view.entries.filter fun x => x.slot != e.slot := by
  obtain ⟨m', sigs, htake, hf, -⟩ := hc.take_live he
  obtain ⟨hsigs, hgen⟩ := take_eq_ok htake
  refine ⟨m', by rw [htake, ← hsigs], ⟨hf.consistent, hf.capacity_eq, hf.eqv_eq, ?_, hgen, ?_,
    by simp [MapOp.changes], by simp⟩, hf.entries_eq⟩
  · have hlen := Recency.length_others hc.describes.nodup he
    rw [hf.consistent.size_eq, hf.entries_eq, hc.size_eq]
    show _ = _ - 1
    omega
  · exact stamped_of_removals (by simp [MapOp.changes]) fun x hx => by
      rw [hf.entries_eq] at hx
      exact (Recency.mem_others.mp hx).1

/-- Taking through a cursor at a live entry performs the entry's removal; the cursor handed
back is a fresh one at the neighbour on the side asked for. -/
theorem Consistent.cursor_take_performs (hc : m.Consistent) {e : Recency.Entry κ ν}
    (he : e ∈ m.arena.view.entries) (c : Cursor) (hs : c.slot = e.slot) (towardsTail : Bool) :
    ∃ m', c.take m towardsTail =
        .ok ((e.pair, (if towardsTail then nextIn m.arena.view.slots e.slot
          else prevIn m.arena.view.slots e.slot).map m'.cursorAt), m',
          (MapOp.take e.key : MapOp κ ν).signals m'.size m'.generation) ∧
      m.Performs (.take e.key) m' ∧
      m'.arena.view.entries = m.arena.view.entries.filter fun x => x.slot != e.slot := by
  obtain ⟨m', htake, hperf, hes⟩ := hc.take_performs he
  refine ⟨m', ?_, hperf, hes⟩
  simp [Cursor.take, Cursor.onSlot, hs, htake, bind, Except.bind, Except.mapError, pure,
    Except.pure, Recency.Entry.pair]

/-- Touching through a cursor at a live entry performs a move of the entry to the front and
stamps the cursor with the new generation. -/
theorem Consistent.touch_performs (hc : m.Consistent) {e : Recency.Entry κ ν}
    (he : e ∈ m.arena.view.entries) (c : Cursor) (hs : c.slot = e.slot) :
    ∃ m', c.touch m = .ok ({ c with stamp := m'.generation }, m') ∧
      m.Performs (.touch e.key) m' ∧
      m'.arena.view.entries = { e with seq := m'.generation } ::
        m.arena.view.entries.filter fun x => x.slot != e.slot := by
  obtain ⟨m', htouch, hf⟩ := hc.touch_live he c hs
  obtain ⟨-, hgen, -⟩ := Cursor.touch_eq_ok htouch
  rw [← hgen] at htouch hf
  have hk := SomeIndex.eqv_refl hc.describes.lawful e.key
  refine ⟨m', htouch, ⟨hf.consistent, hf.capacity_eq, hf.eqv_eq, ?_, hgen, ?_,
    by simp [MapOp.changes], by simp⟩, hf.entries_eq⟩
  · rw [hf.consistent.size_eq, hf.entries_eq, hc.length_move he]
    rfl
  · exact hc.stamped_move he hk hf.entries_eq rfl rfl

/-- An extension performs the model's pushes one after another and leaves its pairs. -/
theorem Consistent.extend_passes (hc : m.Consistent) (hcap : 0 < m.capacity)
    (pairs : List (κ × ν)) :
    ∃ m', m.extend pairs = .ok ((), m', MapOp.signalsFrom m.size m.generation
        (Naive.extendOps m.index.eqv m.capacity m.toList pairs)) ∧
      m.Passes (Naive.extendOps m.index.eqv m.capacity m.toList pairs) m' ∧
      m'.toList = Naive.extend m.index.eqv m.capacity m.toList pairs := by
  induction pairs generalizing m with
  | nil => exact ⟨m, rfl, .nil m, rfl⟩
  | cons p rest ih =>
    obtain ⟨k, v⟩ := p
    obtain ⟨m1, hpush, hperf, hlist⟩ := hc.push_performs hcap k v
    have hcap1 : 0 < m1.capacity := by
      rw [hperf.capacity_eq]
      exact hcap
    obtain ⟨m2, hext, hpass, hlist2⟩ := ih hperf.consistent hcap1
    -- the rest is pushed onto the pairs the first push left
    rw [hperf.capacity_eq, hperf.eqv_eq, hlist] at hext hpass hlist2
    refine ⟨m2, ?_, .cons hperf hpass, hlist2⟩
    simp only [Lru.extend, hpush, hext, Naive.extendOps, MapOp.signalsFrom, bind, Except.bind,
      pure, Except.pure, ← hperf.size_eq, ← hperf.generation_eq]

/-- Taking the front entry `n` times performs the removals of the first `n` pairs, in order. -/
theorem Consistent.takeHeads_passes (hc : m.Consistent) (n : Nat) :
    ∃ m', m.takeHeads n = .ok (m.toList.take n, m', MapOp.signalsFrom m.size m.generation
        ((m.toList.take n).map fun p => .take p.1)) ∧
      m.Passes ((m.toList.take n).map fun p => .take p.1) m' ∧ m'.toList = m.toList.drop n := by
  induction n generalizing m with
  | zero => exact ⟨m, rfl, .nil m, rfl⟩
  | succ n ih =>
    have hhead := hc.head_eq
    rw [toList_eq]
    cases hes : m.arena.view.entries with
    | nil =>
      rw [hes] at hhead
      exact ⟨m, by simp [Lru.takeHeads, hhead, MapOp.signalsFrom], .nil m, by rw [toList_eq, hes]; rfl⟩
    | cons e rest =>
      rw [hes] at hhead
      have he : e ∈ m.arena.view.entries := by
        rw [hes]
        exact List.mem_cons_self
      obtain ⟨m1, htake, hperf, hes1⟩ := hc.take_performs he
      -- the front entry's slot is no other entry's, so taking it leaves the rest
      have hrest : (m.arena.view.entries.filter fun x => x.slot != e.slot) = rest := by
        have hnd := hc.describes.nodup
        rw [hes] at hnd ⊢
        exact Recency.filter_head hnd
      rw [hrest] at hes1
      obtain ⟨m2, hrun, hpass, hlist⟩ := ih hperf.consistent
      rw [toList_eq m1, hes1] at hrun hpass hlist
      refine ⟨m2, ?_, .cons hperf hpass, hlist⟩
      simp only [Lru.takeHeads, hhead, List.head?_cons, Option.map_some, htake, hrun, bind, Except.bind, pure,
        Except.pure, List.map_cons, List.take_succ_cons, MapOp.signalsFrom, ← hperf.size_eq,
        ← hperf.generation_eq, Recency.Entry.pair]

/-- A drain performs the removals of the pairs it takes out, then reports them. -/
theorem Consistent.drain_passes (hc : m.Consistent) (limit : Option Nat) :
    ∃ m', m.drain limit = .ok ((Naive.drain m.toList limit).1, m',
        MapOp.signalsFrom m.size m.generation (Naive.drainOps m.toList limit)) ∧
      m.Passes (Naive.drainOps m.toList limit) m' ∧
      m'.toList = (Naive.drain m.toList limit).2 := by
  obtain ⟨m', htake, hpass, hlist⟩ := hc.takeHeads_passes (limit.getD m.size)
  have hdone : m'.Performs (.drained (m.toList.take (limit.getD m.size)).length) m' :=
    (hpass.consistent hc).performs_self rfl rfl (by simp)
  rw [Naive.drainOps, Naive.drain, ← hc.size_naive]
  refine ⟨m', ?_, hpass.append (.single hdone), hlist⟩
  rw [hpass.signalsFrom_append]
  simp only [Lru.drain, htake, bind, Except.bind, pure, Except.pure, MapOp.signalsFrom,
    MapOp.signals, MapOp.sizeAfter, List.append_nil]
  cases m.toList.take (limit.getD m.size) <;> simp

end Lru

end RecencyMap
