/-!
# Key hashing

Two 64-bit hash functions over the byte images of keys: FNV-1a and xxHash64 with seed 0.
Text hashes as its UTF-8 bytes; an integer is first taken modulo `2^bits` of its own width,
widened to 64 bits and hashed as its eight little-endian bytes; a byte array of 16, 32 or 64
bytes hashes as itself. Any other key is refused, naming its type.

FNV has a second path for integers that folds the eight bytes in without building them;
`fnv1aWord` agrees with `fnv1a` on `leBytes` by construction of both from `fnvStep`.
-/

namespace RecencyMap

namespace Hashing

/-- The FNV-1a 64-bit offset basis. -/
def fnvOffset : UInt64 := 1469598103934665603

/-- The FNV-1a 64-bit prime. -/
def fnvPrime : UInt64 := 1099511628211

/-- One FNV-1a round: mix in a byte, then multiply. -/
def fnvStep (h : UInt64) (b : UInt8) : UInt64 :=
  (h ^^^ b.toUInt64) * fnvPrime

/-- FNV-1a of a byte string. -/
def fnv1a (bs : List UInt8) : UInt64 :=
  bs.foldl fnvStep fnvOffset

/-- Fold the low `n` bytes of `u` into `h`, lowest byte first. -/
def fnvWordRounds : Nat → UInt64 → UInt64 → UInt64
  | 0, h, _ => h
  | n + 1, h, u => fnvWordRounds n (fnvStep h u.toUInt8) (u >>> 8)

/-- FNV-1a of the eight little-endian bytes of `u`, without building them. -/
def fnv1aWord (u : UInt64) : UInt64 :=
  fnvWordRounds 8 fnvOffset u

/-- The eight little-endian bytes of `u`. -/
def leBytes (u : UInt64) : List UInt8 :=
  (List.range 8).map fun i => (u >>> (8 * i).toUInt64).toUInt8

/-- The first xxHash64 prime. -/
def prime1 : UInt64 := 11400714785074694791
/-- The second xxHash64 prime. -/
def prime2 : UInt64 := 14029467366897019727
/-- The third xxHash64 prime. -/
def prime3 : UInt64 := 1609587929392839161
/-- The fourth xxHash64 prime. -/
def prime4 : UInt64 := 9650029242287828579
/-- The fifth xxHash64 prime. -/
def prime5 : UInt64 := 2870177450012600261

/-- Rotate left by `r` bits. -/
def rotl (x : UInt64) (r : UInt64) : UInt64 :=
  (x <<< r) ||| (x >>> (64 - r))

/-- The little-endian number made of the given bytes. -/
def readLE (bs : List UInt8) : UInt64 :=
  bs.foldr (fun b acc => (acc <<< 8) ||| b.toUInt64) 0

/-- Mix one 8-byte lane into an accumulator. -/
def round (acc input : UInt64) : UInt64 :=
  rotl (acc + input * prime2) 31 * prime1

/-- Fold a lane accumulator into the hash after the stripes. -/
def mergeRound (h v : UInt64) : UInt64 :=
  (h ^^^ round 0 v) * prime1 + prime4

/-- Run the four lanes over every whole 32-byte stripe; return them and the leftover bytes. -/
def stripes (v : UInt64 × UInt64 × UInt64 × UInt64) (bs : List UInt8) :
    (UInt64 × UInt64 × UInt64 × UInt64) × List UInt8 :=
  if _h : 32 ≤ bs.length then
    let (v1, v2, v3, v4) := v
    let lane (i : Nat) := readLE ((bs.drop (8 * i)).take 8)
    stripes (round v1 (lane 0), round v2 (lane 1), round v3 (lane 2), round v4 (lane 3))
      (bs.drop 32)
  else (v, bs)
termination_by bs.length
decreasing_by simp only [List.length_drop]; omega

/-- Mix the bytes left after the stripes: whole words, then a half word, then single bytes. -/
def tail (h : UInt64) (bs : List UInt8) : UInt64 :=
  if _hw : 8 ≤ bs.length then
    tail (rotl (h ^^^ round 0 (readLE (bs.take 8))) 27 * prime1 + prime4) (bs.drop 8)
  else if _hh : 4 ≤ bs.length then
    tail (rotl (h ^^^ readLE (bs.take 4) * prime1) 23 * prime2 + prime3) (bs.drop 4)
  else
    bs.foldl (fun h b => rotl (h ^^^ b.toUInt64 * prime5) 11 * prime1) h
termination_by bs.length
decreasing_by all_goals (simp only [List.length_drop]; omega)

/-- The final scrambling of the bits. -/
def avalanche (h : UInt64) : UInt64 :=
  let h := (h ^^^ (h >>> 33)) * prime2
  let h := (h ^^^ (h >>> 29)) * prime3
  h ^^^ (h >>> 32)

/-- xxHash64 of a byte string with seed 0. -/
def xxHash64 (bs : List UInt8) : UInt64 :=
  let (h, rest) :=
    if 32 ≤ bs.length then
      let ((v1, v2, v3, v4), rest) := stripes (prime1 + prime2, prime2, 0, 0 - prime1) bs
      let h := rotl v1 1 + rotl v2 7 + rotl v3 12 + rotl v4 18
      let h := mergeRound (mergeRound (mergeRound (mergeRound h v1) v2) v3) v4
      (h, rest)
    else (prime5, bs)
  avalanche (tail (h + bs.length.toUInt64) rest)

end Hashing

/-- The two hash functions keys can be hashed with. -/
inductive HashFn where
  | fnv
  | xxhash
  deriving DecidableEq, Repr

/-- The name a refusal gives the function. -/
def HashFn.label : HashFn → String
  | .fnv => "util.Fnv64a"
  | .xxhash => "util.XXHash64"

/-- A key offered for hashing, by the type it has. -/
inductive HashKey where
  /-- A string. -/
  | text (s : String)
  /-- A value of a named type that describes itself as `s`. -/
  | described (s : String)
  /-- A signed integer of the given width in bits. -/
  | signed (bits : Nat) (v : Int)
  /-- An unsigned integer of the given width in bits. -/
  | unsigned (bits : Nat) (v : Nat)
  /-- A fixed-size array of bytes. -/
  | byteArray (bytes : List UInt8)
  /-- A 64-bit floating-point number. -/
  | real
  /-- A truth value. -/
  | boolean (b : Bool)

/-- A key whose type neither function accepts. -/
structure UnsupportedKey where
  fn : HashFn
  typeName : String

/-- The text of the refusal. -/
def UnsupportedKey.message (u : UnsupportedKey) : String :=
  s!"{u.fn.label}: unsupported key type {u.typeName}; convert the key or supply a custom Hasher"

/-- How a hash function sees a key: as bytes, as a 64-bit word, or as a type it refuses. -/
inductive HashImage where
  | bytes (bs : List UInt8)
  | word (w : UInt64)
  | refused (typeName : String)

/-- The image of a key: text as UTF-8, integers reduced to their width and widened, byte
arrays of 16, 32 or 64 bytes as they are. -/
def HashKey.image : HashKey → HashImage
  | .text s | .described s => .bytes s.toUTF8.toList
  | .signed bits v => .word (UInt64.ofNat (v % Int.ofNat (Nat.pow 2 bits)).toNat)
  | .unsigned _ v => .word (UInt64.ofNat v)
  | .byteArray bs =>
    if bs.length = 16 ∨ bs.length = 32 ∨ bs.length = 64 then .bytes bs
    else .refused s!"[{bs.length}]uint8"
  | .real => .refused "float64"
  | .boolean _ => .refused "bool"

/-- The hash of a key, or the refusal of its type. -/
def HashFn.hash (fn : HashFn) (k : HashKey) : Except UnsupportedKey UInt64 :=
  match k.image, fn with
  | .bytes bs, .fnv => .ok (Hashing.fnv1a bs)
  | .bytes bs, .xxhash => .ok (Hashing.xxHash64 bs)
  | .word w, .fnv => .ok (Hashing.fnv1aWord w)
  | .word w, .xxhash => .ok (Hashing.xxHash64 (Hashing.leBytes w))
  | .refused t, _ => .error { fn := fn, typeName := t }

end RecencyMap
