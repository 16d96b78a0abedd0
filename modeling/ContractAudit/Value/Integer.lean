import ContractAudit.Finding.Diagnostic
import ContractAudit.Value.Display

/-! # Values as items and as integers -/

namespace ContractAudit

inductive ItemsError where
  | notIterable (kind : String)
  | notPair (index : Nat)
  | wrongLength (index length : Nat)
  | unhashable (kind : String)
deriving DecidableEq, Repr

namespace ItemsError

def message : ItemsError → String
  | notIterable kind => "'" ++ kind ++ "' object is not iterable"
  | notPair index => "cannot convert dictionary update sequence element #" ++ toString index
      ++ " to a sequence"
  | wrongLength index length => "dictionary update sequence element #" ++ toString index
      ++ " has length " ++ toString length ++ "; 2 is required"
  | unhashable kind => "unhashable type: '" ++ kind ++ "'"

def fault (e : ItemsError) : Fault where
  kind := match e with
    | wrongLength _ _ => "ValueError"
    | _ => "TypeError"
  message := e.message

end ItemsError

namespace Value

def items? : Value → Option (List Value)
  | .list vs | .tuple vs => some vs
  | .set ks => some (ks.map .scalar)
  | .map m => some (m.map fun e => .scalar e.1)
  | .str s => some (s.toList.map fun c => .str (String.singleton c))
  | .scalar (.bytes bs) => some (bs.map fun b => .int b.toNat)
  | _ => none

def items (v : Value) : Except ItemsError (List Value) :=
  match v.items? with
  | some vs => .ok vs
  | none => .error (.notIterable v.kindName)

def entryOf (index : Nat) (v : Value) : Except ItemsError (Scalar × Value) :=
  match v.items? with
  | none => .error (.notPair index)
  | some [.scalar k, x] => .ok (k, x)
  | some [k, _] => .error (.unhashable k.kindName)
  | some vs => .error (.wrongLength index vs.length)

def toEntries (v : Value) : Except ItemsError Entries :=
  match v with
  | .map m => .ok m
  | v => do
    let pairs ← (← v.items).zipIdx.mapM fun (x, i) => entryOf i x
    return Entries.ofList pairs

end Value

inductive IntegerError where
  | notNumber (kind : String)
  | notDigits (base : Nat) (text : String)
  | tooManyDigits (e : Decimal.TooManyDigits)
  | undefined
  | infinite

namespace IntegerError

def shownLength : Nat := 200

def message : IntegerError → String
  | notNumber kind =>
    "int() argument must be a string, a bytes-like object or a real number, not '" ++ kind ++ "'"
  | notDigits base text => "invalid literal for int() with base " ++ toString base ++ ": "
      ++ String.ofList ((Text.quoted text).toList.take shownLength)
  | tooManyDigits e => e.message
  | undefined => "cannot convert float NaN to integer"
  | infinite => "cannot convert float infinity to integer"

def fault (e : IntegerError) : Fault where
  kind := match e with
    | notNumber _ => "TypeError"
    | notDigits _ _ | tooManyDigits _ | undefined => "ValueError"
    | infinite => "OverflowError"
  message := e.message

end IntegerError

def integerOfText (s : String) : Except IntegerError Int :=
  match Decimal.signedDigits? s with
  | none => .error (.notDigits 10 s)
  | some (negative, ds) => match Decimal.natOfDigits ds with
    | .ok n => .ok (Decimal.signed negative n)
    | .error e => .error (.tooManyDigits e)

def baseDigit? (c : Char) : Option Nat :=
  if c.isDigit then some (c.toNat - 48)
  else if c.isAlpha then some (c.toLower.toNat - 87)
  else none

def baseLetter? : Nat → Option Char
  | 2 => some 'b'
  | 8 => some 'o'
  | 16 => some 'x'
  | _ => none

def dropBaseMark (base : Nat) : List Char → List Char
  | '0' :: c :: s => if baseLetter? base == some c.toLower then s else '0' :: c :: s
  | s => s

/-- The integer that a text without bars stands for in a base that is a power of two. -/
def integerInBase (base : Nat) (s : String) : Except IntegerError Int :=
  let (negative, ds) := Decimal.sign (Decimal.trimMargin (s.toList.map Decimal.plainChar))
  match (dropBaseMark base ds).mapM baseDigit? with
  | some (n :: ns) =>
    if (n :: ns).all (· < base) then
      .ok (Decimal.signed negative ((n :: ns).foldl (fun m d => base * m + d) 0))
    else .error (.notDigits base s)
  | _ => .error (.notDigits base s)

def Value.toInteger (v : Value) : Except IntegerError Int :=
  match v with
  | .scalar (.int n) => .ok n
  | .scalar (.bool b) => .ok (if b then 1 else 0)
  | .scalar (.float x) => match Decimal.truncate? x with
    | some n => .ok n
    | none => .error (if x.isNaN then .undefined else .infinite)
  | .scalar (.str s) => integerOfText s
  | v => .error (.notNumber v.kindName)

end ContractAudit
