import ContractAudit.Text.Base64
import ContractAudit.Text.Case
import ContractAudit.Text.Parts
import ContractAudit.Text.Pattern
import ContractAudit.Value.Integer
import ContractAudit.Yaml.Token

/-! # Scalars of YAML -/

namespace ContractAudit.Yaml
open Text
variable (text : String)

inductive Tag where
  | null
  | bool
  | int
  | float
  | timestamp
  | binary
  | str
  | seq
  | map
  | set
  | pairs
  /-- The key that merges other maps. -/
  | merge
  | equals
  | unknown
deriving DecidableEq, Repr

def tagHome : String := "tag:yaml.org,2002:"

def tagNames : List (String × Tag) :=
  [("null", .null), ("bool", .bool), ("int", .int), ("float", .float), ("timestamp", .timestamp),
    ("binary", .binary), ("str", .str), ("seq", .seq), ("map", .map), ("set", .set),
    ("omap", .pairs), ("pairs", .pairs), ("merge", .merge), ("value", .equals)]

def Tag.ofName (name : String) : Tag :=
  ((tagNames.find? fun e => name == tagHome ++ e.1).map (·.2)).getD .unknown

def boolWords : List (String × Bool) :=
  [("yes", true), ("no", false), ("true", true), ("false", false), ("on", true), ("off", false)]

def isBoolWord (s : String) : Bool :=
  boolWords.any fun (w, _) => s == w || s == Text.capitalize w || s == Text.upper w

def nullWords : List String := ["~", "null", "Null", "NULL", ""]

def digitOrBar : Pattern := .one fun c => c.isDigit || c == '_'

def asciiDigit : Pattern := .one Char.isDigit

def optSign : Pattern := .opt (.anyOf "-+")

def optExponent : Pattern := .opt (.anyOf "eE" ++ .anyOf "-+" ++ .some1 asciiDigit)

def sixties : Pattern :=
  .some1 (.char ':' ++ .opt (.one fun c => '0' ≤ c && c ≤ '5') ++ asciiDigit)

def floatPattern : Pattern :=
  .oneOf
    [optSign ++ asciiDigit ++ .many digitOrBar ++ .char '.' ++ .many digitOrBar ++ optExponent,
      .char '.' ++ asciiDigit ++ .many digitOrBar ++ optExponent,
      optSign ++ asciiDigit ++ .many digitOrBar ++ sixties ++ .char '.' ++ .many digitOrBar,
      optSign ++ .char '.' ++ .oneOf [.lit "inf", .lit "Inf", .lit "INF"],
      .char '.' ++ .oneOf [.lit "nan", .lit "NaN", .lit "NAN"]]

def intPattern : Pattern :=
  .oneOf
    [optSign ++ .lit "0b" ++ .some1 (.anyOf "01_"),
      optSign ++ .char '0' ++ .some1 (.one fun c => ('0' ≤ c && c ≤ '7') || c == '_'),
      optSign ++ .oneOf [.char '0', (.one fun c => '1' ≤ c && c ≤ '9') ++ .many digitOrBar],
      optSign ++ .lit "0x" ++ .some1 (.one fun c => (Json.hexValue? c).isSome || c == '_'),
      optSign ++ (.one fun c => '1' ≤ c && c ≤ '9') ++ .many digitOrBar ++ sixties]

def shortNumber : Pattern := asciiDigit ++ .opt asciiDigit

def clockPattern : Pattern :=
  let two := asciiDigit ++ asciiDigit
  .oneOf [.anyOf "Tt", .some1 (.anyOf " \t")] ++ .mark 4 shortNumber
    ++ .char ':' ++ .mark 5 two ++ .char ':' ++ .mark 6 two
    ++ .opt (.char '.' ++ .mark 7 (.many asciiDigit))
    ++ .opt (.many (.anyOf " \t") ++ .oneOf [.mark 8 (.char 'Z'),
      .mark 9 (.anyOf "-+") ++ .mark 10 shortNumber ++ .opt (.char ':' ++ .mark 11 two)])

def dayPattern (month : Pattern) : Pattern :=
  .mark 1 (asciiDigit ++ asciiDigit ++ asciiDigit ++ asciiDigit) ++ .char '-' ++ .mark 2 month
    ++ .char '-' ++ .mark 3 month

def plainTimestamp : Pattern :=
  .oneOf [dayPattern (asciiDigit ++ asciiDigit), dayPattern shortNumber ++ clockPattern]

def anyTimestamp : Pattern := dayPattern shortNumber ++ .opt clockPattern

/-- A text without the line break at its end, if there is anything before that. -/
def dropLastBreak (s : List Char) : List Char :=
  if s.getLast? == some '\n' && 1 < s.length then s.dropLast else s

def plainTag : Tag :=
  let s := dropLastBreak text.toList
  let word := String.ofList s
  if isBoolWord word then .bool
  else if floatPattern.matchesAll s then .float
  else if intPattern.matchesAll s then .int
  else if word == "<<" then .merge
  else if nullWords.contains word then .null
  else if plainTimestamp.matchesAll s then .timestamp
  else if word == "=" then .equals
  else if ["!", "&", "*"].contains word then .unknown
  else .str

def numberFault {α : Type} (r : Except IntegerError α) : Except YamlError α :=
  r.mapError fun e => .unmade e.fault

def unmade {α : Type} (kind message : String) : Except YamlError α := .error (.unmade ⟨kind, message⟩)

def noNumber {α : Type} : Except YamlError α := unmade "IndexError" "string index out of range"

def readDigits (s : List Char) : Except YamlError Int :=
  match s with
  | [] => noNumber
  | ['0'] => .ok 0
  | '0' :: 'b' :: ds => numberFault (integerInBase 2 (String.ofList ds))
  | '0' :: 'x' :: ds => numberFault (integerInBase 16 (String.ofList ds))
  | '0' :: _ => numberFault (integerInBase 8 (String.ofList s))
  | _ => do
    let parts ← (splitOnChar ':' s).mapM fun p => numberFault (integerOfText (String.ofList p))
    return parts.foldl (fun n p => 60 * n + p) 0

def readInt : Except YamlError Int :=
  match text.toList.filter (· != '_') with
  | [] => noNumber
  | '-' :: s => do return -(← readDigits s)
  | '+' :: s => readDigits s
  | s => readDigits s

def readDecimal (s : List Char) : Except YamlError Float :=
  match Decimal.readFloat? (String.ofList s) with
  | some x => .ok x
  | none => unmade "ValueError" ("could not convert string to float: " ++ Text.quoted (String.ofList s))

/-- The double of parts in base 60, which are added from the last to the first. -/
def sixtiesValue (parts : List Float) : Float :=
  (parts.foldr (fun part (x, base) => (x + part * base, base * 60.0)) ((0.0, 1.0) : Float × Float)).1

def readReal (negative : Bool) (s : List Char) : Except YamlError Float := do
  let signed (x : Float) : Float := if negative then -x else x
  if s == ".nan".toList then return 0.0 / 0.0
  else if s == ".inf".toList then return signed (1.0 / 0.0)
  else if s.contains ':' then return signed (sixtiesValue (← (splitOnChar ':' s).mapM readDecimal))
  else return signed (← readDecimal s)

def readFloat : Except YamlError Float :=
  match (Text.lower (String.ofList (text.toList.filter (· != '_')))).toList with
  | [] => noNumber
  | '-' :: s => readReal true s
  | '+' :: s => readReal false s
  | s => readReal false s

def readBool : Except YamlError Bool :=
  let word := Text.lower text
  match boolWords.lookup word with
  | some b => .ok b
  | none => unmade "KeyError" (Text.quoted word)

def microseconds (ds : List Char) : Nat :=
  Json.digitsValue ((ds ++ List.replicate 6 '0').take 6)

def offsetOf (m : Match) : Except YamlError (Option Int) :=
  let part (i : Nat) : Nat := Json.digitsValue (m.group i)
  match m.group 9 with
  | [] => .ok (if (m.group 8).isEmpty then none else some 0)
  | sign =>
    let span : Int := part 10 * 60 + part 11
    let n := if sign == ['-'] then -span else span
    if n.natAbs < 1440 then .ok (some n)
    else unmade "ValueError" ("offset must be a timedelta strictly between "
      ++ "-timedelta(hours=24) and timedelta(hours=24), not " ++ shownSpan n ++ ".")

def checkedTimestamp (t : Timestamp) (problem : Option String) : Except YamlError Timestamp :=
  match problem with
  | some p => unmade "ValueError" p
  | none => .ok t

def readTimestamp : Except YamlError Timestamp :=
  match (anyTimestamp ++ .textEnd).matchStart (dropLastBreak text.toList) with
  | none => unmade "AttributeError" "'NoneType' object has no attribute 'groupdict'"
  | some m => do
    let part (i : Nat) : Nat := Json.digitsValue (m.group i)
    let date : Date := ⟨part 1, part 2, part 3⟩
    if (m.group 4).isEmpty then checkedTimestamp (.date date) date.problem?
    else
      let offset ← offsetOf m
      let t : DateTime := ⟨date, part 4, part 5, part 6, microseconds (m.group 7), offset⟩
      checkedTimestamp (.time t) t.problem?

def readBinary : Except YamlError (List UInt8) :=
  let s := text.toList
  if s.all fun c => c.toNat < 128 then
    match Base64.decode? s with
    | some bs => .ok bs
    | none => .error .content
  else .error .content

def scalarOf (tag : Tag) (text : String) : Except YamlError Scalar :=
  match tag with
  | .null => .ok .null
  | .bool => do return .bool (← readBool text)
  | .int => do return .int (← readInt text)
  | .float => do return .float (← readFloat text)
  | .timestamp => do return .timestamp (← readTimestamp text)
  | .binary => do return .bytes (← readBinary text)
  | .str => .ok (.str text)
  | _ => .error .content

end ContractAudit.Yaml
