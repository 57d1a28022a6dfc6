import RecencyMap.Bench.Numerals
import RecencyMap.Quoted

/-!
# Command-line flags

A command line is read as flags until the first argument that is not one. A flag is `-name`
or `--name`, with its value after `=` or, for flags that need one, in the next argument.
A switch takes no value unless it is written with `=`. `--` ends the flags; `-h` and `-help`
ask for help when no flag of that name exists. Later flags override earlier ones.
-/

namespace RecencyMap

open Numerals

/-- The kind of value a flag takes. -/
inductive FlagKind where
  | integer
  | real
  | duration
  | switch
  | text
  deriving DecidableEq, Repr

/-- The value given to a flag. -/
inductive FlagValue where
  | integer (n : Int)
  | real (x : FloatLit)
  | duration (ns : Int)
  | switch (on : Bool)
  | text (s : String)

/-- Why a command line was refused. -/
inductive FlagError where
  | badSyntax (arg : String)
  | undefined (name : String)
  | missingArgument (name : String)
  | invalidValue (value name : String) (why : NumError)
  | invalidSwitch (value name : String)
  /-- Help was asked for. -/
  | help

/-- The text a refusal prints; help prints nothing but the usage. -/
def FlagError.message : FlagError → String
  | .badSyntax a => s!"bad flag syntax: {a}"
  | .undefined n => s!"flag provided but not defined: -{n}"
  | .missingArgument n => s!"flag needs an argument: -{n}"
  | .invalidValue v n why => s!"invalid value {Quoted.quote v} for flag -{n}: {why.message}"
  | .invalidSwitch v n => s!"invalid boolean value {Quoted.quote v} for -{n}: parse error"
  | .help => ""

/-- Read a value of a kind from its text. -/
def FlagKind.read : FlagKind → String → Except NumError FlagValue
  | .integer, s => FlagValue.integer <$> parseInt64 s
  | .real, s => FlagValue.real <$> parseFloat s
  | .duration, s => match parseDuration s with
    | some d => .ok (.duration d)
    | none => .error .malformed
  | .switch, s => FlagValue.switch <$> parseBool s
  | .text, s => .ok (.text s)

/-- Split `name=value` at the first `=` after the first character. -/
def splitAssignment (name : String) : String × Option String :=
  match name.toList with
  | c :: rest =>
    match rest.idxOf? '=' with
    | some i => (String.ofList (c :: rest.take i), some (String.ofList (rest.drop (i + 1))))
    | none => (name, none)
  | [] => (name, none)

/-- Read flags from the front of `args` (at most `fuel` of them), appending each assignment
to `acc`. Parsing stops at the first argument that is not a flag. -/
def readFlags (specs : List (String × FlagKind)) :
    Nat → List String → List (String × FlagValue) → Except FlagError (List (String × FlagValue))
  | 0, _, acc => .ok acc
  | _, [], acc => .ok acc
  | fuel + 1, a :: rest, acc =>
    let cs := a.toList
    if cs.length < 2 || cs.head? != some '-' then .ok acc
    else if a == "--" then .ok acc
    else
      let body := if cs[1]? == some '-' then a.drop 2 else a.drop 1
      let body := body.toString
      if body.isEmpty || body.startsWith "-" || body.startsWith "=" then .error (.badSyntax a)
      else
        let (name, given) := splitAssignment body
        match specs.lookup name with
        | none => .error (if name == "help" || name == "h" then .help else .undefined name)
        | some .switch =>
          match given with
          | some v => match parseBool v with
            | .ok b => readFlags specs fuel rest (acc ++ [(name, .switch b)])
            | .error _ => .error (.invalidSwitch v name)
          | none => readFlags specs fuel rest (acc ++ [(name, .switch true)])
        | some kind =>
          let (value, rest) := match given, rest with
            | some v, r => (some v, r)
            | none, v :: r => (some v, r)
            | none, [] => (none, [])
          match value with
          | none => .error (.missingArgument name)
          | some v => match kind.read v with
            | .ok x => readFlags specs fuel rest (acc ++ [(name, x)])
            | .error why => .error (.invalidValue v name why)

/-- The assignments of a command line, in order. -/
def parseFlags (specs : List (String × FlagKind)) (args : List String) :
    Except FlagError (List (String × FlagValue)) :=
  readFlags specs args.length args []

end RecencyMap
