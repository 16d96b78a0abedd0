import ContractAudit.Decimal.Shortest
import ContractAudit.Text.Word

/-! # Reading numbers -/

namespace ContractAudit.Decimal

/-- The double nearest to `m * 10 ^ e`. Far outside of the range of doubles it is zero or infinite,
    whatever the digits. -/
def scientific (m : Nat) (e : Int) : Float :=
  let places := e + digitCount m
  if m = 0 || places < -400 then 0
  else if 400 < places then 1.0 / 0.0
  else Float.ofScientific m (e < 0) e.natAbs

def plainChar (c : Char) : Char :=
  if c.toNat < 128 then c
  else if Text.isBlank c then ' '
  else match Text.digitValue? c with
    | some d => Nat.digitChar d
    | none => c

def isMargin (c : Char) : Bool := c == ' ' || (9 ≤ c.toNat && c.toNat ≤ 13)

def trimMargin (s : List Char) : List Char :=
  ((s.dropWhile isMargin).reverse.dropWhile isMargin).reverse

/-- The text without its bars, if each stands between two digits. -/
def dropBars? : (last : Option Char) → List Char → Option (List Char)
  | _, [] => some []
  | last, '_' :: s =>
    if last.any Char.isDigit && s.head?.any Char.isDigit then dropBars? (some '_') s else none
  | _, c :: s => (dropBars? (some c) s).map (c :: ·)

def plainText? (s : String) : Option (List Char) :=
  dropBars? none (trimMargin (s.toList.map plainChar))

def sign : List Char → Bool × List Char
  | '-' :: s => (true, s)
  | '+' :: s => (false, s)
  | s => (false, s)

def digitsToNat (ds : List Char) : Nat := Text.digitsToNat (ds.map fun c => c.toNat - 48)

def maxDigits : Nat := 4300

structure TooManyDigits where
  count : Nat
deriving DecidableEq, Repr

def TooManyDigits.message (e : TooManyDigits) : String :=
  "Exceeds the limit (" ++ toString maxDigits ++ " digits) for integer string conversion: value has "
    ++ toString e.count ++ " digits; use sys.set_int_max_str_digits() to increase the limit"

def tooLongMessage : String :=
  "Exceeds the limit (" ++ toString maxDigits ++ " digits) for integer string conversion; "
    ++ "use sys.set_int_max_str_digits() to increase the limit"

def natOfDigits (ds : List Char) : Except TooManyDigits Nat :=
  if maxDigits < ds.length then .error ⟨ds.length⟩
  else .ok (Text.digitsToNat (ds.map fun c => (Text.digitValue? c).getD 0))

def signedDigits? (s : String) : Option (Bool × List Char) := do
  let (negative, ds) := sign (← plainText? s)
  if ds.isEmpty || !ds.all Char.isDigit then none else some (negative, ds)

def signed (negative : Bool) (n : Nat) : Int := if negative then -(n : Int) else n

def readInt? (s : String) : Option Int := do
  let (negative, ds) ← signedDigits? s
  (natOfDigits ds).toOption.map (signed negative)

/-- The exponent at the end of a number, if one is there; nothing if there is anything else. -/
def readExponent? : List Char → Option Int
  | [] => some 0
  | e :: s =>
    if e == 'e' || e == 'E' then
      let (negative, ds) := sign s
      if ds.isEmpty || !ds.all Char.isDigit then none
      else some (signed negative (digitsToNat ds))
    else none

def readPositive? (s : List Char) : Option Float :=
  let word := s.map Char.toLower
  if word == "inf".toList || word == "infinity".toList then some (1.0 / 0.0)
  else if word == "nan".toList then some (0.0 / 0.0)
  else
    let whole := s.takeWhile Char.isDigit
    let s := s.dropWhile Char.isDigit
    let (places, s) := match s with
      | '.' :: r => (r.takeWhile Char.isDigit, r.dropWhile Char.isDigit)
      | s => ([], s)
    if whole.isEmpty && places.isEmpty then none
    else (readExponent? s).map fun e =>
      scientific (digitsToNat (whole ++ places)) (e - places.length)

def readFloat? (s : String) : Option Float := do
  let (negative, s) := sign (← plainText? s)
  let x ← readPositive? s
  some (if negative then -x else x)

end ContractAudit.Decimal
