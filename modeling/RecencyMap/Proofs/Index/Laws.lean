import Mathlib
import RecencyMap.KeyIndex

/-!
# Laws of a key index

Both kinds of index answer lookups up to an equivalence of keys: `==` for a hash index, a
comparison of `.eq` for a search tree. When the keys behave (an `==` that is an equivalence
with a hash that agrees with it, or a comparator that is a total preorder), a lookup after an
insertion or an erasure is the lookup before it, except at the keys equivalent to the one
inserted or erased, and the count moves by one exactly when such a key was or was not there.
Every proof about a map goes through these laws and never through the two representations.
-/

namespace RecencyMap

namespace SomeIndex

variable {κ : Type} [BEq κ] [Hashable κ]

/-- Whether the index takes `a` and `b` for the same key. -/
def eqv : SomeIndex κ → κ → κ → Bool
  | .hashed _, a, b => a == b
  | .ordered cmp _, a, b => cmp a b == .eq

/-- What the index needs of its keys: an `==` that is an equivalence with a hash that agrees
with it, or a comparator that is a total preorder. -/
def Lawful : SomeIndex κ → Prop
  | .hashed _ => EquivBEq κ ∧ LawfulHashable κ
  | .ordered cmp _ => Std.TransCmp cmp

/-! ## Inserting and erasing keep the kind of index -/

@[simp] theorem eqv_insert (ix : SomeIndex κ) (k : κ) (s : Slot) :
    (KeyIndex.insert ix k s).eqv = ix.eqv := by
  cases ix <;> rfl

@[simp] theorem eqv_erase (ix : SomeIndex κ) (k : κ) : (KeyIndex.erase ix k).eqv = ix.eqv := by
  cases ix <;> rfl

theorem lawful_insert {ix : SomeIndex κ} (h : ix.Lawful) (k : κ) (s : Slot) :
    (KeyIndex.insert ix k s).Lawful := by
  cases ix <;> exact h

theorem lawful_erase {ix : SomeIndex κ} (h : ix.Lawful) (k : κ) :
    (KeyIndex.erase ix k).Lawful := by
  cases ix <;> exact h

/-! ## The laws -/

section Laws

variable {ix : SomeIndex κ}

theorem eqv_refl (h : ix.Lawful) (k : κ) : ix.eqv k k = true := by
  cases ix with
  | hashed m =>
    have : EquivBEq κ := h.1
    exact BEq.refl k
  | ordered cmp t =>
    have : Std.TransCmp cmp := h
    simp only [eqv, beq_iff_eq]
    exact Std.ReflCmp.compare_self

theorem eqv_symm (h : ix.Lawful) {a b : κ} (hab : ix.eqv a b = true) : ix.eqv b a = true := by
  cases ix with
  | hashed m =>
    have : EquivBEq κ := h.1
    exact BEq.symm hab
  | ordered cmp t =>
    have : Std.TransCmp cmp := h
    simpa [eqv] using Std.OrientedCmp.eq_symm (by simpa [eqv] using hab)

theorem eqv_trans (h : ix.Lawful) {a b c : κ} (hab : ix.eqv a b = true)
    (hbc : ix.eqv b c = true) : ix.eqv a c = true := by
  cases ix with
  | hashed m =>
    have : EquivBEq κ := h.1
    exact BEq.trans hab hbc
  | ordered cmp t =>
    have : Std.TransCmp cmp := h
    simp only [eqv, beq_iff_eq] at hab hbc ⊢
    exact Std.TransCmp.eq_trans hab hbc

/-- Equivalent keys find the same slot. -/
theorem find?_congr (h : ix.Lawful) {a b : κ} (hab : ix.eqv a b = true) :
    KeyIndex.find? ix a = KeyIndex.find? ix b := by
  cases ix with
  | hashed m =>
    have : EquivBEq κ := h.1
    have : LawfulHashable κ := h.2
    exact Std.HashMap.getElem?_congr hab
  | ordered cmp t =>
    have : Std.TransCmp cmp := h
    exact Std.TreeMap.getElem?_congr (by simpa [eqv] using hab)

theorem find?_insert (h : ix.Lawful) (k : κ) (s : Slot) (a : κ) :
    KeyIndex.find? (KeyIndex.insert ix k s) a =
      if ix.eqv k a then some s else KeyIndex.find? ix a := by
  cases ix with
  | hashed m =>
    have : EquivBEq κ := h.1
    have : LawfulHashable κ := h.2
    exact Std.HashMap.getElem?_insert
  | ordered cmp t =>
    have : Std.TransCmp cmp := h
    simp only [eqv, beq_iff_eq]
    exact Std.TreeMap.getElem?_insert

theorem find?_erase (h : ix.Lawful) (k : κ) (a : κ) :
    KeyIndex.find? (KeyIndex.erase ix k) a = if ix.eqv k a then none else KeyIndex.find? ix a := by
  cases ix with
  | hashed m =>
    have : EquivBEq κ := h.1
    have : LawfulHashable κ := h.2
    exact Std.HashMap.getElem?_erase
  | ordered cmp t =>
    have : Std.TransCmp cmp := h
    simp only [eqv, beq_iff_eq]
    exact Std.TreeMap.getElem?_erase

theorem count_insert (h : ix.Lawful) (k : κ) (s : Slot) :
    KeyIndex.count (KeyIndex.insert ix k s) =
      if (KeyIndex.find? ix k).isSome then KeyIndex.count ix else KeyIndex.count ix + 1 := by
  cases ix with
  | hashed m =>
    have : EquivBEq κ := h.1
    have : LawfulHashable κ := h.2
    show (m.insert k s).size = if m[k]?.isSome then m.size else m.size + 1
    rw [Std.HashMap.size_insert]
    exact if_congr Std.HashMap.mem_iff_isSome_getElem? rfl rfl
  | ordered cmp t =>
    have : Std.TransCmp cmp := h
    show (t.insert k s).size = if t[k]?.isSome then t.size else t.size + 1
    rw [Std.TreeMap.size_insert, Std.TreeMap.contains_eq_isSome_getElem?]

theorem count_erase (h : ix.Lawful) (k : κ) :
    KeyIndex.count (KeyIndex.erase ix k) =
      if (KeyIndex.find? ix k).isSome then KeyIndex.count ix - 1 else KeyIndex.count ix := by
  cases ix with
  | hashed m =>
    have : EquivBEq κ := h.1
    have : LawfulHashable κ := h.2
    show (m.erase k).size = if m[k]?.isSome then m.size - 1 else m.size
    rw [Std.HashMap.size_erase]
    exact if_congr Std.HashMap.mem_iff_isSome_getElem? rfl rfl
  | ordered cmp t =>
    have : Std.TransCmp cmp := h
    show (t.erase k).size = if t[k]?.isSome then t.size - 1 else t.size
    rw [Std.TreeMap.size_erase, Std.TreeMap.contains_eq_isSome_getElem?]

end Laws

end SomeIndex

end RecencyMap
