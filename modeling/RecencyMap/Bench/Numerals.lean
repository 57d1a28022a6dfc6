/-!
# Numerals on the command line

The text forms a command line accepts for numbers, truth values and durations.

* An integer has an optional sign, then a base prefix (`0b`, `0o`, `0x`, or a bare leading
  `0` for octal) or none, then digits; an underscore may stand between two digits or after a
  prefix. Its magnitude must fit 64 bits, and the signed value `[-2^63, 2^63)`.
* A floating-point literal is `inf`, `infinity` or `nan` in any case (the first two signed or
  not), or a decimal or hexadecimal mantissa with an optional exponent (`e` for decimal, a
  required `p` for hexadecimal). It is out of range when it rounds beyond the largest finite
  double.
* A duration is `0` or a sequence of decimal numbers each with a unit among `ns`, `us`, `µs`,
  `μs`, `ms`, `s`, `m`, `h`, with an optional sign in front; it must fit 63 bits of
  nanoseconds.
-/

namespace RecencyMap

namespace Numerals

/-- Why a numeral was refused. -/
inductive NumError where
  /-- The text is not a numeral of the kind. -/
  | malformed
  /-- The numeral is too large for its kind. -/
  | range
  deriving DecidableEq, Repr

/-- The text of a refusal, as a flag error reports it. -/
def NumError.message : NumError → String
  | .malformed => "parse error"
  | .range => "value out of range"

/-- The value of a digit or letter as a digit of some base (letters count from 10). -/
def digitValue (c : Char) : Option Nat :=
  if c.isDigit then some (c.toNat - 48)
  else if c.isLower then some (c.toNat - 87)
  else if c.isUpper then some (c.toNat - 55)
  else none

/-- Whether the underscores of a numeral each stand between digits (a base prefix counting
as a digit). -/
def underscoresFit (s : List Char) : Bool :=
  let s := match s with
    | '+' :: r | '-' :: r => r
    | r => r
  let (hex, saw, body) := match s with
    | '0' :: c :: r =>
      if c.toLower == 'b' || c.toLower == 'o' || c.toLower == 'x' then (c.toLower == 'x', '0', r)
      else (false, '^', s)
    | _ => (false, '^', s)
  let step (st : Option Char) (c : Char) : Option Char :=
    st.bind fun saw =>
      if c.isDigit || (hex && (c.toLower.toNat ≥ 97 && c.toLower.toNat ≤ 102)) then some '0'
      else if c == '_' then if saw == '0' then some '_' else none
      else if saw == '_' then none
      else some '!'
  match body.foldl step (some saw) with
  | some last => last != '_'
  | none => false

/-- The largest unsigned 64-bit number. -/
def maxWord : Nat := Nat.pow 2 64 - 1

/-- Accumulate digits of `base`, skipping underscores; report whether any were seen. -/
def accumulate (base : Nat) : List Char → Nat → Bool → Except NumError (Nat × Bool)
  | [], n, u => .ok (n, u)
  | c :: rest, n, u =>
    if c == '_' then accumulate base rest n true
    else match digitValue c with
      | none => .error .malformed
      | some d =>
        if d ≥ base then .error .malformed
        else if n * base + d > maxWord then .error .range
        else accumulate base rest (n * base + d) u

/-- An unsigned numeral with an optional base prefix. -/
def parseUnsigned (s : List Char) : Except NumError Nat :=
  if s.isEmpty then .error .malformed
  else
    let (base, digits) := match s with
      | '0' :: c :: r@(_ :: _) =>
        if c.toLower == 'b' then (2, r)
        else if c.toLower == 'o' then (8, r)
        else if c.toLower == 'x' then (16, r)
        else (8, c :: r)
      | '0' :: r => (8, r)
      | _ => (10, s)
    match accumulate base digits 0 false with
    | .error e => .error e
    | .ok (n, underscores) =>
      if underscores && !underscoresFit s then .error .malformed else .ok n

/-- A signed 64-bit integer numeral. -/
def parseInt64 (s : String) : Except NumError Int :=
  let cs := s.toList
  if cs.isEmpty then .error .malformed
  else
    let (neg, body) := match cs with
      | '+' :: r => (false, r)
      | '-' :: r => (true, r)
      | r => (false, r)
    let magnitude : Except NumError Nat := match parseUnsigned body with
      | .error .range => .ok (maxWord + 1)
      | other => other
    match magnitude with
    | .error e => .error e
    | .ok u =>
      if !neg && u ≥ Nat.pow 2 63 then .error .range
      else if neg && u > Nat.pow 2 63 then .error .range
      else .ok (if neg then -(u : Int) else u)

/-- A truth value: `1`, `t`, `T`, `true`, `TRUE`, `True` and their false counterparts. -/
def parseBool (s : String) : Except NumError Bool :=
  if ["1", "t", "T", "true", "TRUE", "True"].contains s then .ok true
  else if ["0", "f", "F", "false", "FALSE", "False"].contains s then .ok false
  else .error .malformed

/-- A floating-point literal, kept exactly. -/
inductive FloatLit where
  | nan
  | infinite (neg : Bool)
  /-- `mantissa · 2^exponent` when `binary`, else `mantissa · 10^exponent`. -/
  | finite (neg : Bool) (mantissa : Nat) (binary : Bool) (exponent : Int)
  deriving Repr

/-- How many characters of `s` start with `word`, ignoring ASCII case. -/
def commonPrefixLength (s : List Char) (word : String) : Nat :=
  ((s.zip word.toList).takeWhile fun (a, b) => a.toLower == b).length

/-- The special literals: infinities and not-a-number, with how many characters they take. -/
def special (s : List Char) : Option (FloatLit × Nat) :=
  let inf (neg : Bool) (signLen : Nat) (r : List Char) : Option (FloatLit × Nat) :=
    let n := commonPrefixLength r "infinity"
    let n := if 3 < n && n < 8 then 3 else n
    if n == 3 || n == 8 then some (.infinite neg, signLen + n) else none
  match s with
  | '+' :: r => inf false 1 r
  | '-' :: r => inf true 1 r
  | c :: _ =>
    if c == 'i' || c == 'I' then inf false 0 s
    else if (c == 'n' || c == 'N') && commonPrefixLength s "nan" == 3 then some (.nan, 3)
    else none
  | [] => none

/-- The state of a mantissa being read: digits so far, digits after the point, whether a
point and whether digits were seen. -/
structure Mantissa where
  digits : Nat := 0
  afterPoint : Nat := 0
  sawPoint : Bool := false
  sawDigits : Bool := false
  underscores : Bool := false

/-- Read mantissa characters of `base`; return the mantissa and the characters left. -/
def readMantissa (base : Nat) : Mantissa → List Char → Mantissa × List Char
  | m, [] => (m, [])
  | m, c :: rest =>
    if c == '_' then readMantissa base { m with underscores := true } rest
    else if c == '.' then
      if m.sawPoint then (m, c :: rest)
      else readMantissa base { m with sawPoint := true } rest
    else match digitValue c with
      | some d =>
        if d < base && (c.isDigit || base == 16) then
          let after := if m.sawPoint then m.afterPoint + 1 else m.afterPoint
          readMantissa base
            { m with digits := m.digits * base + d, sawDigits := true, afterPoint := after } rest
        else (m, c :: rest)
      | none => (m, c :: rest)

/-- Read exponent digits (underscores allowed), saturating as the value grows past 10000. -/
def readExponent : Nat → Bool → List Char → Nat × Bool × List Char
  | e, u, [] => (e, u, [])
  | e, u, c :: rest =>
    if c == '_' then readExponent e true rest
    else if c.isDigit then readExponent (if e < 10000 then e * 10 + (c.toNat - 48) else e) u rest
    else (e, u, c :: rest)

/-- A floating-point literal, refused unless it is read to its end. -/
def parseFloatSyntax (s : String) : Except NumError FloatLit :=
  let cs := s.toList
  match special cs with
  | some (lit, n) => if n == cs.length then .ok lit else .error .malformed
  | none =>
    let (neg, body) := match cs with
      | '+' :: r => (false, r)
      | '-' :: r => (true, r)
      | r => (false, r)
    let (hex, digits) := match body with
      | '0' :: x :: r@(_ :: _) => if x.toLower == 'x' then (true, r) else (false, body)
      | _ => (false, body)
    let (m, rest) := readMantissa (if hex then 16 else 10) {} digits
    if !m.sawDigits then .error .malformed
    else
      let expChar := if hex then 'p' else 'e'
      let exponent : Option (Int × Bool × List Char) := match rest with
        | c :: r =>
          if c.toLower == expChar then
            let (sign, r) : Int × List Char := match r with
              | '+' :: r => (1, r)
              | '-' :: r => (-1, r)
              | r => (1, r)
            match r with
            | d :: _ =>
              if d.isDigit then
                let (e, u, r) := readExponent 0 false r
                some (sign * e, u, r)
              else none
            | [] => none
          else if hex then none else some (0, false, rest)
        | [] => if hex then none else some (0, false, [])
      match exponent with
      | none => .error .malformed
      | some (e, u, left) =>
        let used := cs.take (cs.length - left.length)
        if !left.isEmpty then .error .malformed
        else if (m.underscores || u) && !underscoresFit used then .error .malformed
        else if hex then .ok (.finite neg m.digits true (e - 4 * m.afterPoint))
        else .ok (.finite neg m.digits false (e - m.afterPoint))

/-- The number of binary digits of `n`. -/
def bitLength (n : Nat) : Nat := (Nat.toDigits 2 n).length

/-- The number of digits of `m` in base 2 (`binary`) or 10. -/
def digitCount (binary : Bool) (m : Nat) : Nat :=
  if binary then bitLength m else (toString m).length

/-- Compare `m · b^e` with `p / 2^q`, where `m > 0`, `b` is 2 (`binary`) or 10, and the
target `p / 2^q` lies between `2^-64` and `2^1088`. With `k` digits before the point,
`b^(k-1) ≤ m · b^e < b^k`: a value with at least 1100 binary or 400 decimal digits before the
point is above every such target, one below `2^-64` or `10^-20` is under it, and anything in
between is compared exactly, with powers no larger than the digits of `m` and a few hundred
more. -/
def compareScaled (m : Nat) (binary : Bool) (e : Int) (p q : Nat) : Ordering :=
  let k : Int := digitCount binary m + e
  let (high, low) : Int × Int := if binary then (1100, -64) else (400, -20)
  if k - 1 ≥ high then .gt
  else if k ≤ low then .lt
  else
    let b := if binary then 2 else 10
    if e ≥ 0 then compare (m * Nat.pow b e.toNat * Nat.pow 2 q) p
    else compare (m * Nat.pow 2 q) (p * Nat.pow b e.natAbs)

/-- Whether `m · b^e` rounds past the largest double: it is at least `2^1024 - 2^970`, the
midpoint between the largest double and `2^1024`, where rounding to even goes up. -/
def overflows (m : Nat) (binary : Bool) (e : Int) : Bool :=
  m != 0 && compareScaled m binary e ((Nat.pow 2 54 - 1) * Nat.pow 2 970) 0 != .lt

/-- A floating-point literal that is also in range. -/
def parseFloat (s : String) : Except NumError FloatLit := do
  let lit ← parseFloatSyntax s
  match lit with
  | .finite _ m binary e => if overflows m binary e then throw .range else pure lit
  | _ => pure lit

namespace FloatLit

/-- Whether the literal, rounded to a double, is at most `1`. -/
def atMostOne : FloatLit → Bool
  | .nan => false
  | .infinite neg => neg
  | .finite true _ _ _ => true
  | .finite false m binary e => m == 0 || compareScaled m binary e (Nat.pow 2 53 + 1) 53 != .gt

/-- Whether the literal, rounded to a double, is below `1`. -/
def belowOne : FloatLit → Bool
  | .nan => false
  | .infinite neg => neg
  | .finite true _ _ _ => true
  | .finite false m binary e => m == 0 || compareScaled m binary e (Nat.pow 2 54 - 1) 54 == .lt

end FloatLit

/-- The units of a duration, in nanoseconds. -/
def durationUnit : String → Option Nat
  | "ns" => some 1
  | "us" | "µs" | "μs" => some 1000
  | "ms" => some 1000000
  | "s" => some 1000000000
  | "m" => some 60000000000
  | "h" => some 3600000000000
  | _ => none

/-- Leading decimal digits, refused when they pass `2^63`. -/
def leadingInt : List Char → Nat → Option (Nat × List Char)
  | [], x => some (x, [])
  | c :: rest, x =>
    if c.isDigit then
      if x > Nat.pow 2 63 / 10 then none
      else
        let x := x * 10 + (c.toNat - 48)
        if x > Nat.pow 2 63 then none else leadingInt rest x
    else some (x, c :: rest)

/-- Leading fraction digits: their value and scale, stopping to gain precision at `2^63`. -/
def leadingFraction : List Char → Nat → Float → Bool → Nat × Float × List Char
  | [], x, scale, _ => (x, scale, [])
  | c :: rest, x, scale, full =>
    if c.isDigit then
      if full then leadingFraction rest x scale true
      else if x > (Nat.pow 2 63 - 1) / 10 then leadingFraction rest x scale true
      else
        let y := x * 10 + (c.toNat - 48)
        if y > Nat.pow 2 63 then leadingFraction rest x scale true
        else leadingFraction rest y (scale * 10) false
    else (x, scale, c :: rest)

/-- Sum the terms of a duration after its sign. Each term takes at least one character, so
`fuel` at least the length of `s` is enough. -/
def durationTerms : Nat → Nat → List Char → Option Nat
  | 0, total, _ => some total
  | fuel + 1, total, s =>
    match s with
    | [] => some total
    | c :: _ =>
      if !(c == '.' || c.isDigit) then none
      else do
        let (v, rest) ← leadingInt s 0
        let pre := rest.length != s.length
        let (f, scale, rest, post) := match rest with
          | '.' :: r =>
            let (f, scale, r') := leadingFraction r 0 1 false
            (f, scale, r', r'.length != r.length)
          | r => (0, 1, r, false)
        if !pre && !post then none
        let unitText := rest.takeWhile fun c => !(c == '.' || c.isDigit)
        if unitText.isEmpty then none
        let unit ← durationUnit (String.ofList unitText)
        if v > Nat.pow 2 63 / unit then none
        let v := v * unit
        let v := if f > 0 then v + (Float.ofNat f * (Float.ofNat unit / scale)).toUInt64.toNat
          else v
        if v > Nat.pow 2 63 then none
        let total := total + v
        if total > Nat.pow 2 63 then none
        durationTerms fuel total (rest.drop unitText.length)

/-- A duration in nanoseconds, or `none` when the text is not a duration or does not fit. -/
def parseDuration (s : String) : Option Int :=
  let cs := s.toList
  let (neg, body) := match cs with
    | '-' :: r => (true, r)
    | '+' :: r => (false, r)
    | r => (false, r)
  if body == ['0'] then some 0
  else if body.isEmpty then none
  else do
    let d ← durationTerms body.length 0 body
    if neg then some (-(d : Int))
    else if d > Nat.pow 2 63 - 1 then none
    else some d

end Numerals

end RecencyMap
