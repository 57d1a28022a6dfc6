/-!
# Key orders

The comparators an ordered map can be built with. Each is a total preorder on its keys;
two keys that compare `.eq` are the same key to the map.
-/

namespace RecencyMap

/-- The natural order reversed. -/
def descending {κ : Type} [Ord κ] (a b : κ) : Ordering :=
  compare b a

/-- The magnitude of a 64-bit integer as 64-bit negation computes it: the least value,
`-2^63`, has no positive counterpart and stays itself. -/
def magnitude (a : Int) : Int :=
  if a < 0 ∧ a ≠ -Int.ofNat (Nat.pow 2 63) then -a else a

/-- 64-bit integers ordered by magnitude, so `3` and `-3` are the same key. -/
def byMagnitude (a b : Int) : Ordering :=
  compare (magnitude a) (magnitude b)

/-- A character with `A`–`Z` mapped to `a`–`z`; every other character is kept. -/
def foldAscii (c : Char) : Char :=
  if 'A' ≤ c ∧ c ≤ 'Z' then Char.ofNat (c.toNat + 32) else c

/-- Strings ordered after folding ASCII capitals, so `"Ab"` and `"aB"` are the same key while
`"É"` and `"é"` stay apart. -/
def byFoldedCase (a b : String) : Ordering :=
  compare (a.map foldAscii) (b.map foldAscii)

end RecencyMap
