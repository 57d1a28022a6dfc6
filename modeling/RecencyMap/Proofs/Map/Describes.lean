import RecencyMap.Proofs.Arena.Refinement
import RecencyMap.Proofs.Index.Laws

/-!
# An index that describes a list of entries

A map keeps two structures in step: the arena's entries and the index from keys to slots. The
index describes the entries when every entry's key finds the entry's slot, every key that
finds a slot finds one of an entry whose key is the same to the index, and the index counts
the entries. Each change a map makes to its entries (dropping one, putting a new one in front,
moving one to the front, changing payloads) comes with the change to the index that keeps the
description true; the lemmas here say which.
-/

namespace RecencyMap

namespace Recency

variable {κ ν : Type}

section Entries

variable {es : List (Recency.Entry κ ν)}

/-- Dropping the entry at a slot of a list with distinct slots drops one entry. -/
theorem length_others {e : Recency.Entry κ ν} (hnd : (es.map Recency.Entry.slot).Nodup)
    (he : e ∈ es) : (es.filter fun x => x.slot != e.slot).length + 1 = es.length := by
  have hone : (es.map Recency.Entry.slot).count e.slot = 1 :=
    List.count_eq_one_of_mem hnd (List.mem_map_of_mem he)
  rw [List.count, List.countP_map, List.countP_eq_length_filter] at hone
  have hsplit := List.length_eq_length_filter_add (fun x : Recency.Entry κ ν => x.slot != e.slot)
    (l := es)
  have hsame : es.filter (fun x => !(x.slot != e.slot)) =
      es.filter ((fun t => t == e.slot) ∘ Recency.Entry.slot) := by
    congr 1
    funext x
    simp [bne]
  rw [hsame, hone] at hsplit
  exact hsplit.symm

theorem mem_others {s : Slot} {x : Recency.Entry κ ν} :
    (x ∈ es.filter fun y => y.slot != s) ↔ x ∈ es ∧ x.slot ≠ s := by
  simp

/-- Changing the entry at `s` and then dropping it is dropping it. -/
theorem filter_map_update (s : Slot) (f : Recency.Entry κ ν → Recency.Entry κ ν)
    (hf : ∀ x, (f x).slot = x.slot) :
    ((es.map fun x => if x.slot = s then f x else x).filter fun x => x.slot != s) =
      es.filter fun x => x.slot != s := by
  induction es with
  | nil => rfl
  | cons x es ih =>
    by_cases hx : x.slot = s
    · simp [hx, hf, ih]
    · simp [hx, ih]

/-- Dropping a slot no entry has drops nothing. -/
theorem filter_of_not_mem {s : Slot} (hs : s ∉ es.map Recency.Entry.slot) :
    (es.filter fun x => x.slot != s) = es := by
  refine List.filter_eq_self.mpr fun x hx => ?_
  have hxs : x.slot ≠ s := fun hxs => hs (List.mem_map.mpr ⟨x, hx, hxs⟩)
  simpa using hxs

/-- Dropping the last entry of a list with distinct slots drops its last element. -/
theorem filter_last {e : Recency.Entry κ ν} (hnd : (es.map Recency.Entry.slot).Nodup)
    (hlast : es.getLast? = some e) : (es.filter fun x => x.slot != e.slot) = es.dropLast := by
  obtain ⟨ys, rfl⟩ := List.getLast?_eq_some_iff.mp hlast
  -- no slot before the last is the last one's
  have hnot : e.slot ∉ ys.map Recency.Entry.slot := by
    rw [List.map_append, List.map_singleton] at hnd
    exact (List.nodup_cons.mp (List.nodup_append_comm.mp hnd)).1
  rw [List.filter_append, List.dropLast_concat, filter_of_not_mem hnot]
  simp

/-- Dropping the first entry of a list with distinct slots leaves the rest. -/
theorem filter_head {e : Recency.Entry κ ν} (hnd : ((e :: es).map Recency.Entry.slot).Nodup) :
    ((e :: es).filter fun x => x.slot != e.slot) = es := by
  rw [List.filter_cons_of_neg (by simp), filter_of_not_mem (List.nodup_cons.mp hnd).1]

end Entries

end Recency

namespace SomeIndex

variable {κ ν : Type} [BEq κ] [Hashable κ]

/-- The index finds exactly the entries of `es`, by keys it takes for theirs, and counts
them. -/
structure Describes (ix : SomeIndex κ) (es : List (Recency.Entry κ ν)) : Prop where
  lawful : ix.Lawful
  nodup : (es.map Recency.Entry.slot).Nodup
  count_eq : KeyIndex.count ix = es.length
  find_entry : ∀ e ∈ es, KeyIndex.find? ix e.key = some e.slot
  entry_of_find : ∀ k s, KeyIndex.find? ix k = some s →
    ∃ e ∈ es, e.slot = s ∧ ix.eqv e.key k

variable {ix : SomeIndex κ} {es : List (Recency.Entry κ ν)}

/-- Two entries whose keys the index takes for the same are one entry. -/
theorem Describes.eq_of_eqv (h : ix.Describes es) {e e' : Recency.Entry κ ν} (he : e ∈ es)
    (he' : e' ∈ es) (hk : ix.eqv e.key e'.key = true) : e = e' := by
  have hslot : e.slot = e'.slot := by
    have h1 := h.find_entry e he
    have h2 := h.find_entry e' he'
    rw [find?_congr h.lawful hk, h2] at h1
    exact (Option.some.inj h1).symm
  exact List.inj_on_of_nodup_map h.nodup he he' hslot

/-- A key finds a slot exactly when an entry there has a key the index takes for it. -/
theorem Describes.find?_eq_some_iff (h : ix.Describes es) (k : κ) (s : Slot) :
    KeyIndex.find? ix k = some s ↔ ∃ e ∈ es, e.slot = s ∧ ix.eqv e.key k = true := by
  constructor
  · exact h.entry_of_find k s
  · rintro ⟨e, he, rfl, hk⟩
    rw [← find?_congr h.lawful hk]
    exact h.find_entry e he

theorem Describes.find?_eq_none_iff (h : ix.Describes es) (k : κ) :
    KeyIndex.find? ix k = none ↔ ∀ e ∈ es, ix.eqv e.key k = false := by
  constructor
  · intro hnone e he
    by_contra hk
    have hsome := (h.find?_eq_some_iff k e.slot).mpr ⟨e, he, rfl, by simpa using hk⟩
    rw [hnone] at hsome
    cases hsome
  · intro hall
    cases hfind : KeyIndex.find? ix k with
    | none => rfl
    | some s =>
      obtain ⟨e, he, -, hk⟩ := h.entry_of_find k s hfind
      rw [hall e he] at hk
      cases hk

/-- A fresh index of either kind, over keys that behave, describes no entries. -/
theorem describes_empty (hfresh : ix = .emptyHashed ∨ ∃ cmp, ix = .emptyOrdered cmp)
    (hlaw : ix.Lawful) : ix.Describes ([] : List (Recency.Entry κ ν)) where
  lawful := hlaw
  nodup := List.nodup_nil
  count_eq := by
    rcases hfresh with rfl | ⟨cmp, rfl⟩ <;> rfl
  find_entry := by simp
  entry_of_find k s hfind := by
    rcases hfresh with rfl | ⟨cmp, rfl⟩
    · simp [KeyIndex.find?, emptyHashed] at hfind
    · have : Std.TransCmp cmp := hlaw
      simp [KeyIndex.find?, emptyOrdered] at hfind

/-! ## Changes that keep the description -/

/-- Dropping an entry and erasing its key. -/
theorem Describes.erase (h : ix.Describes es) {e : Recency.Entry κ ν} (he : e ∈ es) :
    (KeyIndex.erase ix e.key).Describes (es.filter fun x => x.slot != e.slot) where
  lawful := lawful_erase h.lawful e.key
  nodup := h.nodup.sublist ((List.filter_sublist).map _)
  count_eq := by
    have hlen := Recency.length_others h.nodup he
    rw [count_erase h.lawful, h.find_entry e he, Option.isSome_some, if_pos rfl, h.count_eq]
    omega
  find_entry x hx := by
    obtain ⟨hx, hne⟩ := Recency.mem_others.mp hx
    -- the erased key is not taken for `x`'s, or `x` would be `e`
    have hk : ix.eqv e.key x.key = false := by
      by_contra hk
      exact hne (congrArg Recency.Entry.slot (h.eq_of_eqv he hx (by simpa using hk))).symm
    rw [find?_erase h.lawful, hk, if_neg Bool.false_ne_true, h.find_entry x hx]
  entry_of_find k s hfind := by
    rw [find?_erase h.lawful] at hfind
    by_cases hk : ix.eqv e.key k = true
    · rw [if_pos hk] at hfind
      cases hfind
    · rw [if_neg hk] at hfind
      obtain ⟨x, hx, rfl, hxk⟩ := h.entry_of_find k s hfind
      refine ⟨x, Recency.mem_others.mpr ⟨hx, fun hslot => ?_⟩, rfl, by simpa using hxk⟩
      have hxe : x = e := List.inj_on_of_nodup_map h.nodup hx he hslot
      exact hk (hxe ▸ hxk)

/-- Putting a new entry in front at a fresh slot and recording its key, which the index did
not find. -/
theorem Describes.insert (h : ix.Describes es) {k : κ} (hk : KeyIndex.find? ix k = none)
    {s : Slot} (hs : s ∉ es.map Recency.Entry.slot) (v : ν) (g : Nat) :
    (KeyIndex.insert ix k s).Describes ({ slot := s, key := k, value := v, seq := g } :: es) where
  lawful := lawful_insert h.lawful k s
  nodup := List.nodup_cons.mpr ⟨hs, h.nodup⟩
  count_eq := by
    rw [count_insert h.lawful, hk, Option.isSome_none, if_neg Bool.false_ne_true, h.count_eq]
    rfl
  find_entry x hx := by
    rw [find?_insert h.lawful]
    rcases List.mem_cons.mp hx with rfl | hx
    · rw [if_pos (eqv_refl h.lawful k)]
    -- no old key is taken for the new one, since the new one found nothing
    · have hxk : ix.eqv k x.key = false := by
        by_contra hxk
        have hfind := find?_congr h.lawful (by simpa using hxk)
        rw [hk, h.find_entry x hx] at hfind
        cases hfind
      rw [hxk, if_neg Bool.false_ne_true, h.find_entry x hx]
  entry_of_find k' t hfind := by
    rw [find?_insert h.lawful] at hfind
    by_cases hkk : ix.eqv k k' = true
    · rw [if_pos hkk] at hfind
      exact ⟨_, List.mem_cons_self, Option.some.inj hfind, by simpa using hkk⟩
    · rw [if_neg hkk] at hfind
      obtain ⟨x, hx, hxs, hxk⟩ := h.entry_of_find k' t hfind
      exact ⟨x, List.mem_cons_of_mem _ hx, hxs, by simpa using hxk⟩

/-- Moving an entry to the front with a new stamp. -/
theorem Describes.move (h : ix.Describes es) {e : Recency.Entry κ ν} (he : e ∈ es) (g : Nat) :
    ix.Describes ({ e with seq := g } :: es.filter fun x => x.slot != e.slot) where
  lawful := h.lawful
  nodup := by
    refine List.nodup_cons.mpr ⟨fun hmem => ?_, h.nodup.sublist ((List.filter_sublist).map _)⟩
    obtain ⟨x, hx, hxs⟩ := List.mem_map.mp hmem
    exact (Recency.mem_others.mp hx).2 hxs
  count_eq := by
    rw [h.count_eq, List.length_cons, Recency.length_others h.nodup he]
  find_entry x hx := by
    rcases List.mem_cons.mp hx with rfl | hx
    · exact h.find_entry e he
    · exact h.find_entry x (Recency.mem_others.mp hx).1
  entry_of_find k s hfind := by
    obtain ⟨x, hx, hxs, hxk⟩ := h.entry_of_find k s hfind
    by_cases hslot : x.slot = e.slot
    -- the entry found is the one moved
    · have hxe : x = e := List.inj_on_of_nodup_map h.nodup hx he hslot
      subst hxe
      exact ⟨_, List.mem_cons_self, hxs, hxk⟩
    · exact ⟨x, List.mem_cons_of_mem _ (Recency.mem_others.mpr ⟨hx, hslot⟩), hxs, hxk⟩

/-- Changing payloads but no slot or key. -/
theorem Describes.map (h : ix.Describes es) (f : Recency.Entry κ ν → Recency.Entry κ ν)
    (hslot : ∀ x, (f x).slot = x.slot) (hkey : ∀ x, (f x).key = x.key) :
    ix.Describes (es.map f) where
  lawful := h.lawful
  nodup := by
    rw [List.map_map]
    have hcomp : Recency.Entry.slot ∘ f = Recency.Entry.slot := funext hslot
    rw [hcomp]
    exact h.nodup
  count_eq := by rw [List.length_map, h.count_eq]
  find_entry x hx := by
    obtain ⟨y, hy, rfl⟩ := List.mem_map.mp hx
    rw [hslot, hkey]
    exact h.find_entry y hy
  entry_of_find k s hfind := by
    obtain ⟨x, hx, hxs, hxk⟩ := h.entry_of_find k s hfind
    exact ⟨f x, List.mem_map_of_mem hx, by rw [hslot, hxs], by rw [hkey]; exact hxk⟩

end SomeIndex

end RecencyMap
