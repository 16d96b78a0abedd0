import ContractAudit.Config.Amount
import ContractAudit.Value.Integer

/-! # Descriptions -/

namespace ContractAudit.Description
variable (v : Value) (k : String)

abbrev Reading := Except Fault

def bad {α : Type} (what : String) : Reading α := .error ⟨"DescriptionError", what⟩

def valueError {α : Type} (message : String) : Reading α := .error ⟨"ValueError", message⟩

def field? : Option Value :=
  match v with
  | .map m => Entries.get m k
  | _ => none

def given? : Option Value := (field? v k).filter (!·.isNull)

def field : Reading Value :=
  match field? v k with
  | some x => .ok x
  | none => .error ⟨"KeyError", Text.quoted k⟩

def asString : Value → Reading String
  | .str s => .ok s
  | v => bad ("not a string: " ++ v.shown)

def asInt : Value → Reading Int
  | .int n => .ok n
  | .bool b => .ok (Amount.counted b)
  | v => bad ("not an integer: " ++ v.shown)

def asNat : Reading Nat := do return (← asInt v).toNat

def asList : Reading (List Value) := v.items.mapError ItemsError.fault

def asEntries : Reading Entries := v.toEntries.mapError ItemsError.fault

def str : Reading String := do asString (← field v k)

/-- What is read of a value, or a default if there is none. -/
def readD {α : Type} (v : Option Value) (read : Value → Reading α) (d : α) : Reading α := v.elim (.ok d) read

def strD (k d : String) : Reading String := readD (given? v k) asString d

def strOpt : Reading (Option String) := (given? v k).mapM asString

def intOpt : Reading (Option Int) := (given? v k).mapM asInt

def listD : Reading (List Value) := readD (field? v k) asList []

def truthy? : Option Value := (field? v k).filter Value.truthy

def listOr : Reading (List Value) := readD (truthy? v k) asList []

def textD (k d : String) : Reading (Option String) :=
  if (field? v k).isNone then .ok (some d) else strOpt v k

def listOf {α : Type} (read : Value → Reading α) (v : Value) (k : String) : Reading (List α) := do
  (← listD v k).mapM read

def strings : Reading (List String) := listOf asString v k

def intD (d : Int) : Reading Int := readD (given? v k) asInt d

def boolOf (d : Bool := false) : Bool := ((field? v k).map Value.truthy).getD d

def entriesD : Reading Entries := readD (truthy? v k) asEntries []

def amountOpt : Reading (Option Amount) :=
  (given? v k).mapM fun x => (Amount.ofValue? x).elim (bad ("amount " ++ k)) .ok

def amountD (d : Option Amount) : Reading (Option Amount) :=
  if (field? v k).isNone then .ok d else amountOpt v k

def orderedD (k sign : String) (d : Int) : Reading Int := do
  let read x := do (← Amount.ofOrdered sign x).whole?.elim (bad ("not an integer: " ++ x.shown)) .ok
  readD (field? v k) read d

/-- A fault, given by its kind and what it says. The fault of a missing key shows the key in quotes. -/
def faultOf : Reading Fault := do
  match ← asList v with
  | [kind, said] =>
    let kind ← asString kind
    let text ← if said.isNull then pure "" else asString said
    return ⟨kind, if kind == "KeyError" && !said.isNull then Text.quoted text else text⟩
  | _ => bad "fault"

def faultOpt : Reading (Option Fault) := (given? v k).mapM faultOf

end ContractAudit.Description
