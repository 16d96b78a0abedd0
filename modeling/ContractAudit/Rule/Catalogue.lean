import ContractAudit.Rule.Accounts
import ContractAudit.Rule.Arithmetic
import ContractAudit.Rule.Invocation
import ContractAudit.Rule.Safety

/-! # The built-in rules -/

namespace ContractAudit

/-- The built-in detectors in the order of their ids, which breaks ties between findings. -/
def builtinDetectors : List Detector :=
  [Arithmetic.detector, Accounts.missingSigner, Accounts.uncheckedAccount, Accounts.missingOwner,
    Invocation.stateChangeAfterCall, Invocation.arbitraryCall, Safety.unsafeCode,
    Safety.panicInHandler, Accounts.nonCanonicalBump]

def builtinRuleIds : List String := builtinDetectors.map (·.info.id)

structure UnknownRule where
  id : String

def UnknownRule.message (e : UnknownRule) : String := "Unknown rule id: " ++ e.id

def detector? (id : String) : Option Detector :=
  let id := Text.upper id
  builtinDetectors.find? (·.info.id == id)

def builtinRule (id : String) (setup : RuleSetup) : Except UnknownRule Rule :=
  match detector? id with
  | some d => .ok (d.rule setup)
  | none => .error ⟨id⟩

end ContractAudit
