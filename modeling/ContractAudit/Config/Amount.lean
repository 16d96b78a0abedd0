import ContractAudit.Finding.Diagnostic
import ContractAudit.Text.Case
import ContractAudit.Value.Display

/-! # Execution modes and amounts -/

namespace ContractAudit

inductive ExecutionMode where
  | parallel
  | sequential
deriving DecidableEq, Repr

structure UnknownMode where
  given : Value

def UnknownMode.message (e : UnknownMode) : String := "Unknown execution mode: " ++ e.given.plain

namespace ExecutionMode

def name : ExecutionMode → String
  | parallel => "PARALLEL"
  | sequential => "SEQUENTIAL"

def parse (v : Value) : Except UnknownMode ExecutionMode :=
  let word := Text.upper (Text.strip v.plain)
  if word == "PARALLEL" then .ok parallel
  else if word == "SEQUENTIAL" then .ok sequential
  else .error ⟨v⟩

def names : List String := ["sequential", "parallel"]

end ExecutionMode

inductive Amount where
  | whole (n : Int)
  | double (x : Float)
  | flag (b : Bool)
deriving DecidableEq

namespace Amount

def counted (b : Bool) : Int := if b then 1 else 0

def toFloat : Amount → Float
  | whole n => Float.ofInt n
  | double x => x
  | flag b => Float.ofInt (counted b)

def toValue : Amount → Value
  | whole n => .int n
  | double x => .float x
  | flag b => .bool b

def text (a : Amount) : String := a.toValue.plain

def ofValue? : Value → Option Amount
  | .int n => some (whole n)
  | .float x => some (double x)
  | .bool b => some (flag b)
  | _ => none

/-- A test of an amount, given for whole and for real numbers. What is no number passes none. -/
def test (p : Int → Bool) (q : Float → Bool) : Amount → Bool
  | whole n => p n
  | double x => q x
  | flag b => p (counted b)

def isNotPositive : Amount → Bool := test (· ≤ 0) (· ≤ 0)

def isNegative : Amount → Bool := test (· < 0) (· < 0)

def isBelowOne : Amount → Bool := test (· < 1) (· < 1)

def isAboveOne : Amount → Bool := test (1 < ·) (1 < ·)

def isZero : Amount → Bool := test (· == 0) (· == 0)

def isReachedBy (count : Nat) : Amount → Bool := test (· ≤ count) (· ≤ count.toFloat)

def whole? : Amount → Option Int
  | whole n => some n
  | double x => (Decimal.truncate? x).filter fun n => Float.ofInt n == x
  | flag b => some (counted b)

def toValue? : Option Amount → Value
  | none => .null
  | some a => a.toValue

def unordered (sign : String) (v : Value) : Fault where
  kind := "TypeError"
  message := "'" ++ sign ++ "' not supported between instances of '" ++ v.kindName ++ "' and 'int'"

def ofOrdered (sign : String) (v : Value) : Except Fault Amount :=
  match ofValue? v with
  | some a => .ok a
  | none => .error (unordered sign v)

end Amount

abbrev Seconds := Amount

end ContractAudit
