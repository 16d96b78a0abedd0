import ContractAudit.Campaign.Event
import ContractAudit.Description.Reader
import ContractAudit.Plugin.Basic

/-! # Errors as data -/

namespace ContractAudit.Description

/-- An error that was made, with the setting that it is about if errors of its kind name one. -/
structure Described where
  fault : Fault
  key : Option Value := none

def typeError {α : Type} (message : String) : Reading α := .error ⟨"TypeError", message⟩

/-- An error needs some arguments and takes some more; it has to be given as many as that. -/
def checkArguments (kind : String) (required : List String) (more count : Nat) : Reading Unit :=
  let start := kind ++ ".__init__() "
  let most := required.length + more
  match required.drop count with
  | [] =>
    if count ≤ most then .ok ()
    else typeError (start ++ "takes " ++ (if more == 0 then "" else "from "
      ++ toString (required.length + 1) ++ " to ") ++ toString (most + 1)
      ++ " positional arguments but " ++ toString (count + 1) ++ " were given")
  | [name] => typeError (start ++ "missing 1 required positional argument: '" ++ name ++ "'")
  | names => typeError (start ++ "missing " ++ toString names.length
      ++ " required positional arguments: " ++ " and ".intercalate (names.map fun n => "'" ++ n ++ "'"))

/-- The text of an error that only keeps its arguments: one as it is, more of them as a tuple. -/
def argumentsText : List Value → String
  | [] => ""
  | [v] => v.plain
  | vs => "(" ++ ", ".intercalate (vs.map Value.shown) ++ ")"

def campaignIdOf : Value → Reading String
  | .str s => .ok s
  | .map _ => typeError "unhashable type: 'slice'"
  | v => typeError ("'" ++ v.kindName ++ "' object is not subscriptable")

def deadlineOf (v : Value) : Reading Seconds :=
  match v, Amount.ofValue? v with
  | .int _, some s =>
    if s.toFloat.isInf then .error ⟨"OverflowError", "int too large to convert to float"⟩ else .ok s
  | _, some s => .ok s
  | .str _, none => valueError "Unknown format code 'f' for object of type 'str'"
  | _, none => typeError ("unsupported format string passed to " ++ v.kindName ++ ".__format__")

def errorOfTwo (kind : String) (names : List String) (args : List Value)
    (message : Value → Value → Reading String) : Reading Described := do
  checkArguments kind names 0 args.length
  return { fault := ⟨kind, ← message (args.getD 0 .null) (args.getD 1 .null)⟩ }

def errorOf (kind : String) (args : List Value) : Reading Described := do
  match kind with
  | "ConfigInvalid" =>
    checkArguments kind ["message"] 1 args.length
    let key := args.getD 1 .null
    let named := if key.truthy then some key.plain else none
    return { fault := ⟨kind, ConfigInvalid.message ⟨.other (args.getD 0 .null).plain, named⟩⟩, key := some key }
  | "PluginLoadError" => errorOfTwo kind ["plugin_name", "reason"] args fun name reason =>
      return PluginLoadError.message ⟨name.plain, .other reason.plain⟩
  | "TargetUnreachable" => errorOfTwo kind ["target", "reason"] args fun target reason =>
      return (Obstacle.unreachable target.plain reason.plain).message
  | "StrategyFailure" => errorOfTwo kind ["strategy", "reason"] args fun strategy reason =>
      return StrategyFailure.message ⟨strategy.plain, reason.plain⟩
  | "CampaignTimeout" => errorOfTwo kind ["campaign_id", "deadline"] args fun id deadline => do
      return CampaignTimeout.message ⟨← campaignIdOf id, ← deadlineOf deadline⟩
  | _ => return { fault := ⟨kind, argumentsText args⟩ }

end ContractAudit.Description
