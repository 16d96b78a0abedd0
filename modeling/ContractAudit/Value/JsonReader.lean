import ContractAudit.Decimal.Reading
import ContractAudit.Value.Basic

/-! # Reading JSON -/

namespace ContractAudit.Json
variable (s : List Char)

def isSpace (c : Char) : Bool := c == ' ' || c == '\n' || c == '\r' || c == '\t'

def skipSpace : List Char := s.dropWhile isSpace

def hexValue? (c : Char) : Option Nat :=
  if c.isDigit then some (c.toNat - 48)
  else if 'a' ≤ c && c ≤ 'f' then some (c.toNat - 87)
  else if 'A' ≤ c && c ≤ 'F' then some (c.toNat - 55)
  else none

def readUnit? : List Char → Option (Nat × List Char)
  | a :: b :: c :: d :: s => do
    let a ← hexValue? a
    let b ← hexValue? b
    let c ← hexValue? c
    let d ← hexValue? d
    some (((a * 16 + b) * 16 + c) * 16 + d, s)
  | _ => none

def escapeLetter? : Char → Option Char
  | '"' => some '"'
  | '\\' => some '\\'
  | '/' => some '/'
  | 'n' => some '\n'
  | 'r' => some '\r'
  | 't' => some '\t'
  | 'b' => some (Char.ofNat 8)
  | 'f' => some (Char.ofNat 12)
  | _ => none

/-- The character of a unit read after `\u`; a high unit needs a low one after it. -/
def readEscaped? : Option (Char × List Char) := do
  let (u, s) ← readUnit? s
  if 0xd800 ≤ u && u < 0xdc00 then
    match s with
    | '\\' :: 'u' :: s =>
      let (v, s) ← readUnit? s
      if 0xdc00 ≤ v && v < 0xe000 then
        some (Char.ofNat (0x10000 + (u - 0xd800) * 0x400 + (v - 0xdc00)), s)
      else none
    | _ => none
  else some (Char.ofNat u, s)

/-- The rest of a string after its opening quote, in at most `fuel` steps. -/
def readString? : (fuel : Nat) → List Char → Option (List Char × List Char)
  | 0, _ => none
  | fuel + 1, s => match s with
    | [] => none
    | '"' :: s => some ([], s)
    | '\\' :: 'u' :: s => do
      let (c, s) ← readEscaped? s
      let (r, s) ← readString? fuel s
      some (c :: r, s)
    | '\\' :: e :: s => do
      let c ← escapeLetter? e
      let (r, s) ← readString? fuel s
      some (c :: r, s)
    | c :: s => do
      let (r, s) ← readString? fuel s
      some (c :: r, s)

def digitsValue (ds : List Char) : Nat := ds.foldl (fun n d => 10 * n + (d.toNat - 48)) 0

def splitSign : List Char → Bool × List Char
  | '-' :: s => (true, s)
  | s => (false, s)

def splitFraction : List Char → List Char × List Char
  | '.' :: r => (r.takeWhile Char.isDigit, r.dropWhile Char.isDigit)
  | s => ([], s)

def splitExponent? : List Char → Option (Int × List Char)
  | 'e' :: '-' :: r | 'E' :: '-' :: r =>
    some (-(digitsValue (r.takeWhile Char.isDigit) : Int), r.dropWhile Char.isDigit)
  | 'e' :: '+' :: r | 'E' :: '+' :: r | 'e' :: r | 'E' :: r =>
    some (digitsValue (r.takeWhile Char.isDigit), r.dropWhile Char.isDigit)
  | _ => none

def signed {α : Type} [Neg α] (negative : Bool) (x : α) : α := if negative then -x else x

/-- The number with these digits before and after the point, and the text behind it. -/
def numberOf (negative : Bool) (whole places s : List Char) : Scalar × List Char :=
  if places.isEmpty && (splitExponent? s).isNone then (.int (signed negative (digitsValue whole)), s)
  else
    let (e, s) := (splitExponent? s).getD (0, s)
    (.float (signed negative (Decimal.scientific (digitsValue (whole ++ places)) (e - places.length))), s)

def readUnsigned? (negative : Bool) (s : List Char) : Option (Scalar × List Char) :=
  let whole := s.takeWhile Char.isDigit
  let (places, s) := splitFraction (s.drop whole.length)
  if whole.isEmpty then none else some (numberOf negative whole places s)

def readNumber? : Option (Scalar × List Char) := readUnsigned? (splitSign s).1 (splitSign s).2

/-- Reads the name of a value. A `raw` reader knows the names of the numbers that are not finite. -/
def keyword? (raw : Bool) (s : List Char) : Option (Scalar × List Char) :=
  if "null".toList.isPrefixOf s then some (.null, s.drop 4)
  else if "true".toList.isPrefixOf s then some (.bool true, s.drop 4)
  else if "false".toList.isPrefixOf s then some (.bool false, s.drop 5)
  else if raw && "NaN".toList.isPrefixOf s then some (.float (0.0 / 0.0), s.drop 3)
  else if raw && "Infinity".toList.isPrefixOf s then some (.float (1.0 / 0.0), s.drop 8)
  else if raw && "-Infinity".toList.isPrefixOf s then some (.float (-1.0 / 0.0), s.drop 9)
  else none

mutual

/-- Reads a value in at most `fuel` steps. Of the entries of one key the last one counts, unless the reader
    is `raw`: then it keeps them all. -/
def readValue? (raw : Bool) : (fuel : Nat) → List Char → Option (Value × List Char)
  | 0, _ => none
  | fuel + 1, s => match s with
    | '"' :: s => (readString? s.length.succ s).map fun (t, s) => (.str (String.ofList t), s)
    | '[' :: s => match skipSpace s with
      | ']' :: s => some (.list [], s)
      | s => (readItems? raw fuel s).map fun (items, s) => (.list items, s)
    | '{' :: s => match skipSpace s with
      | '}' :: s => some (.map [], s)
      | s => (readEntries? raw fuel s).map fun (entries, s) =>
        (.map (if raw then entries else Entries.ofList entries), s)
    | s => ((keyword? raw s) <|> (readNumber? s)).map fun (x, s) => (.scalar x, s)

def readItems? (raw : Bool) : (fuel : Nat) → List Char → Option (List Value × List Char)
  | 0, _ => none
  | fuel + 1, s => do
    let (v, s) ← readValue? raw fuel (skipSpace s)
    match skipSpace s with
    | ',' :: s =>
      let (items, s) ← readItems? raw fuel s
      some (v :: items, s)
    | ']' :: s => some ([v], s)
    | _ => none

def readEntries? (raw : Bool) : (fuel : Nat) → List Char → Option (List (Scalar × Value) × List Char)
  | 0, _ => none
  | fuel + 1, s => match skipSpace s with
    | '"' :: s => do
      let (k, s) ← readString? s.length.succ s
      match skipSpace s with
      | ':' :: s =>
        let (v, s) ← readValue? raw fuel (skipSpace s)
        match skipSpace s with
        | ',' :: s =>
          let (entries, s) ← readEntries? raw fuel s
          some ((.str (String.ofList k), v) :: entries, s)
        | '}' :: s => some ([(.str (String.ofList k), v)], s)
        | _ => none
      | _ => none
    | _ => none

end

def parse? (s : String) : Option Value :=
  let s := s.toList
  match readValue? false (2 * s.length + 2) (skipSpace s) with
  | some (v, rest) => if (skipSpace rest).isEmpty then some v else none
  | none => none

end ContractAudit.Json
