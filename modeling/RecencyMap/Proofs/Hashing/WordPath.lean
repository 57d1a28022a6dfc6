import Mathlib.Data.Nat.Digits.Defs
import RecencyMap.Hashing

/-!
# The word path of FNV-1a

FNV-1a hashes an integer key without building its bytes: `fnv1aWord` mixes in the low byte of
the word and shifts the word right by eight, eight times over. Main statement:
`HashFn.fnv_word_path_matches_byte_path`. The word path is FNV-1a of the eight little-endian
bytes of the word, where `leBytes` is shown to be the word's eight base-256 digits, lowest
first. An integer key hashes as the bytes of the word it widens to: its two's-complement bit
pattern at its own width, zero-extended to 64 bits (`HashKey.widened`, stated through
`BitVec`). So a signed key hashes as the unsigned key of the same width that holds the same
bits, and integer keys of any widths that widen to the same word hash alike.

The byte lemmas are stated for the low `n` bytes (`wordBytes`), `n ≤ 8`, so that one round of
the loop is one step of an induction on `n`.
-/

namespace RecencyMap

namespace Hashing

/-- The low `n` bytes of `u`, lowest first. -/
def wordBytes (n : Nat) (u : UInt64) : List UInt8 :=
  (List.range n).map fun i => (u >>> (8 * i).toUInt64).toUInt8

theorem leBytes_eq_wordBytes (u : UInt64) : leBytes u = wordBytes 8 u := rfl

@[simp] theorem length_wordBytes (n : Nat) (u : UInt64) : (wordBytes n u).length = n := by
  simp [wordBytes]

/-! ## Shifting a word right one byte at a time -/

/-- Two right shifts that stay inside the word are one. -/
theorem shiftRight_shiftRight (u a b : UInt64) (h : a.toNat + b.toNat < 64) :
    u >>> a >>> b = u >>> (a + b) := by
  have hab : (a + b).toNat = a.toNat + b.toNat := by
    rw [UInt64.toNat_add]
    exact Nat.mod_eq_of_lt (by omega)
  apply UInt64.toNat_inj.mp
  simp only [UInt64.toNat_shiftRight, hab, Nat.mod_eq_of_lt h, Nat.shiftRight_add,
    Nat.mod_eq_of_lt (show a.toNat < 64 by omega), Nat.mod_eq_of_lt (show b.toNat < 64 by omega)]

/-- The bytes of a word are its low byte, then the bytes of the word shifted right by eight.
Below eight bytes the shifts add up to less than the width, so none of them wraps. -/
theorem wordBytes_succ (n : Nat) (hn : n < 8) (u : UInt64) :
    wordBytes (n + 1) u = u.toUInt8 :: wordBytes n (u >>> 8) := by
  simp only [wordBytes, List.range_succ_eq_map, List.map_cons, List.map_map]
  congr 1
  apply List.map_congr_left
  intro i hi
  have hi : i < n := List.mem_range.mp hi
  have hsum : (8 : UInt64).toNat + (8 * i).toUInt64.toNat < 64 := by
    simp only [UInt64.reduceToNat, Nat.toUInt64, UInt64.ofNat_mul, UInt64.reduceOfNat,
      UInt64.toNat_mul, UInt64.toNat_ofNat', Nat.reducePow, Nat.mul_mod_mod]
    omega
  rw [Function.comp_apply, shiftRight_shiftRight u 8 _ hsum]
  congr 2
  apply UInt64.toNat_inj.mp
  simp only [Nat.toUInt64, Nat.succ_eq_add_one, UInt64.ofNat_mul, UInt64.reduceOfNat,
    UInt64.ofNat_add, UInt64.ofNat_one, UInt64.toNat_mul, UInt64.reduceToNat, UInt64.toNat_add,
    UInt64.toNat_ofNat', Nat.reducePow, Nat.mod_add_mod, Nat.mul_mod_mod, Nat.add_mod_mod]
  omega

/-- The low `n` bytes of a word, read back as a number in base 256, lowest digit first, are
the word modulo `256 ^ n`. -/
theorem ofDigits_wordBytes (n : Nat) (hn : n ≤ 8) (u : UInt64) :
    Nat.ofDigits 256 ((wordBytes n u).map UInt8.toNat) = u.toNat % 256 ^ n := by
  induction n generalizing u with
  | zero => simp [wordBytes, Nat.mod_one]
  | succ n ih =>
    have hrest : (u >>> 8).toNat = u.toNat / 256 := by
      simp [UInt64.toNat_shiftRight, Nat.shiftRight_eq_div_pow]
    calc Nat.ofDigits 256 ((wordBytes (n + 1) u).map UInt8.toNat)
        = u.toNat % 256 + 256 * ((u >>> 8).toNat % 256 ^ n) := by
          rw [wordBytes_succ n (by omega), List.map_cons, Nat.ofDigits_cons, ih (by omega),
            UInt64.toNat_toUInt8]
      _ = u.toNat % 256 ^ (n + 1) := by
          rw [hrest, pow_succ', Nat.mod_mul]

/-- The bytes `leBytes` gives are the word's eight base-256 digits, lowest first: its
little-endian bytes. -/
theorem ofDigits_leBytes (u : UInt64) :
    Nat.ofDigits 256 ((leBytes u).map UInt8.toNat) = u.toNat := by
  rw [leBytes_eq_wordBytes, ofDigits_wordBytes 8 le_rfl]
  exact Nat.mod_eq_of_lt u.toNat_lt

example : leBytes 0x0807060504030201 = [1, 2, 3, 4, 5, 6, 7, 8] := by decide

/-! ## The word path folds the same bytes as the byte path -/

/-- Running `n` rounds of the word path mixes in the low `n` bytes of the word, lowest first. -/
theorem fnvWordRounds_eq_foldl (n : Nat) (hn : n ≤ 8) (h u : UInt64) :
    fnvWordRounds n h u = (wordBytes n u).foldl fnvStep h := by
  induction n generalizing h u with
  | zero => rfl
  | succ n ih =>
    rw [fnvWordRounds, ih (by omega), wordBytes_succ n (by omega), List.foldl_cons]

theorem fnv1aWord_eq_fnv1a (u : UInt64) : fnv1aWord u = fnv1a (leBytes u) :=
  fnvWordRounds_eq_foldl 8 le_rfl fnvOffset u

end Hashing

/-! ## Integer keys -/

namespace HashKey

/-- The word an integer key widens to: its two's-complement bit pattern at its own width,
zero-extended to 64 bits. Other keys have none. -/
def widened : HashKey → Option UInt64
  | .signed bits v => some (UInt64.ofBitVec ((BitVec.ofInt bits v).setWidth 64))
  | .unsigned bits v => some (UInt64.ofBitVec ((BitVec.ofNat bits v).setWidth 64))
  | _ => none

/-- The key holds a value of its type: an unsigned integer lies below `2 ^ bits`. -/
def Fits : HashKey → Prop
  | .unsigned bits v => v < 2 ^ bits
  | _ => True

/-- A signed key is seen as the unsigned key of its width that holds the same bits. -/
theorem image_signed (bits : Nat) (v : Int) :
    (signed bits v).image = (unsigned bits (v % 2 ^ bits).toNat).image := by
  simp only [image, Nat.pow_eq, Int.ofNat_eq_natCast, Nat.cast_pow, Nat.cast_ofNat]

/-- An integer key that fits its type is seen as the word it widens to. -/
theorem image_of_widened {k : HashKey} (hk : k.Fits) {u : UInt64} (hu : k.widened = some u) :
    k.image = .word u := by
  cases k with
  | signed bits v =>
    simp only [widened, Option.some.injEq] at hu
    subst hu
    rw [image_signed]
    simp only [image]
    congr 1
    apply UInt64.toNat_inj.mp
    simp [BitVec.toNat_setWidth, BitVec.toNat_ofInt, UInt64.toNat_ofNat']
  | unsigned bits v =>
    simp only [widened, Option.some.injEq] at hu
    subst hu
    simp only [image]
    congr 1
    apply UInt64.toNat_inj.mp
    have hv : v % 2 ^ bits = v := Nat.mod_eq_of_lt hk
    simp [BitVec.toNat_setWidth, UInt64.toNat_ofNat', hv]
  | text | described | byteArray | real | boolean => simp [widened] at hu

end HashKey

namespace HashFn

/-- Keys seen alike hash alike, under either function. -/
theorem hash_eq_of_image_eq (fn : HashFn) {k₁ k₂ : HashKey} (h : k₁.image = k₂.image) :
    fn.hash k₁ = fn.hash k₂ := by
  simp only [hash, h]

theorem fnv_hash_of_image_word {k : HashKey} {u : UInt64} (h : k.image = .word u) :
    HashFn.fnv.hash k = .ok (Hashing.fnv1aWord u) := by
  simp only [hash, h]

/-- The word path of FNV-1a agrees with the byte path: it hashes the eight little-endian bytes
of the word, and an integer key hashes as the bytes of the word it widens to. Hence a signed key
hashes as the unsigned key of its width holding the same bits, and integer keys of any widths
that widen to the same word hash alike. -/
theorem fnv_word_path_matches_byte_path :
    (∀ u : UInt64, (Hashing.leBytes u).length = 8 ∧
      Nat.ofDigits 256 ((Hashing.leBytes u).map UInt8.toNat) = u.toNat ∧
      Hashing.fnv1aWord u = Hashing.fnv1a (Hashing.leBytes u)) ∧
    (∀ (k : HashKey) (u : UInt64), k.Fits → k.widened = some u →
      HashFn.fnv.hash k = .ok (Hashing.fnv1a (Hashing.leBytes u))) ∧
    (∀ (fn : HashFn) (bits : Nat) (v : Int),
      fn.hash (.signed bits v) = fn.hash (.unsigned bits (v % 2 ^ bits).toNat)) ∧
    (∀ (fn : HashFn) (k₁ k₂ : HashKey) (u : UInt64), k₁.Fits → k₂.Fits →
      k₁.widened = some u → k₂.widened = some u → fn.hash k₁ = fn.hash k₂) := by
  refine ⟨fun u => ⟨?_, Hashing.ofDigits_leBytes u, Hashing.fnv1aWord_eq_fnv1a u⟩,
    fun k u hk hu => ?_, fun fn bits v => ?_, fun fn k₁ k₂ u hk₁ hk₂ hu₁ hu₂ => ?_⟩
  · rw [Hashing.leBytes_eq_wordBytes, Hashing.length_wordBytes]
  · rw [fnv_hash_of_image_word (HashKey.image_of_widened hk hu), Hashing.fnv1aWord_eq_fnv1a]
  · exact hash_eq_of_image_eq fn (HashKey.image_signed bits v)
  · -- both keys are seen as the same word
    have h₁ := HashKey.image_of_widened hk₁ hu₁
    have h₂ := HashKey.image_of_widened hk₂ hu₂
    exact hash_eq_of_image_eq fn (h₁.trans h₂.symm)

/-- An `int32` of `-1` hashes as the `uint32` of all ones: both widen to `2 ^ 32 - 1`. -/
theorem fnv_word_path_matches_byte_path_int32 :
    (HashKey.unsigned 32 4294967295).Fits ∧
    (HashKey.signed 32 (-1)).widened = some 4294967295 ∧
    (HashKey.unsigned 32 4294967295).widened = some 4294967295 ∧
    HashFn.fnv.hash (.signed 32 (-1)) = HashFn.fnv.hash (.unsigned 32 4294967295) := by
  have hfits : (HashKey.unsigned 32 4294967295).Fits := by
    show 4294967295 < 2 ^ 32
    decide
  have hs : (HashKey.signed 32 (-1)).widened = some 4294967295 := by decide
  have hu : (HashKey.unsigned 32 4294967295).widened = some 4294967295 := by decide
  exact ⟨hfits, hs, hu, fnv_word_path_matches_byte_path.2.2.2 .fnv _ _ _ trivial hfits hs hu⟩

end HashFn

end RecencyMap
