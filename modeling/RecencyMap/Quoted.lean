import RecencyMap.Printable

/-!
# Quoted text

Messages quote user text between double quotes: printable characters stand for themselves,
a quote or backslash gets a backslash, the usual control characters their short escapes,
and any other character a hexadecimal escape (`\x` below 128, else `\u` or `\U`).

Log records print a text value bare unless it is empty or holds a space, `=`, `"`, a control
character below the space, the replacement character or a character above ASCII that is not
printable; then it is quoted as above.
-/

namespace RecencyMap

namespace Quoted

/-- The lowercase hexadecimal digits of `n`, padded with zeros to `width`. -/
def hexPadded (width n : Nat) : String :=
  let digits := String.ofList (Nat.toDigits 16 n)
  String.ofList (List.replicate (width - digits.length) '0') ++ digits

/-- How one character appears between quotes. -/
def escapeChar (c : Char) : String :=
  if c == '"' then "\\\""
  else if c == '\\' then "\\\\"
  else if Printable.isPrintable c then c.toString
  else if c == '\x07' then "\\a"
  else if c == '\x08' then "\\b"
  else if c == '\x0c' then "\\f"
  else if c == '\n' then "\\n"
  else if c == '\r' then "\\r"
  else if c == '\t' then "\\t"
  else if c == '\x0b' then "\\v"
  else if c.toNat < 0x80 then "\\x" ++ hexPadded 2 c.toNat
  else if c.toNat < 0x10000 then "\\u" ++ hexPadded 4 c.toNat
  else "\\U" ++ hexPadded 8 c.toNat

/-- `s` between double quotes, escaped character by character. -/
def quote (s : String) : String :=
  "\"" ++ String.join (s.toList.map escapeChar) ++ "\""

/-- Whether a log record must quote `s`: it is empty, or holds a space, `=`, `"`, an ASCII
control character other than delete, the replacement character or a character that is not
printable. -/
def needsQuotes (s : String) : Bool :=
  s.isEmpty || s.toList.any fun c =>
    if c.toNat < 0x80 then c == ' ' || c == '=' || c == '"' || c.toNat < 0x20
    else c.toNat == 0xFFFD || !Printable.isPrintable c

/-- `s` as a log record prints it. -/
def logText (s : String) : String :=
  if needsQuotes s then quote s else s

end Quoted

end RecencyMap
