import ContractAudit.Description.Finding
import ContractAudit.Engine.Basic
import ContractAudit.Rule.Catalogue
import ContractAudit.Rule.Search

/-! # Units and rules as data -/

namespace ContractAudit.Description

def unitOf (v : Value) : Reading ScanUnit := do
  return .of (← str v "path") (← str v "source") (← strOpt v "language")

def ruleOf (v : Value) : Reading Rule := do
  match field? v "custom" with
  | some id =>
    let outcome ← match ← faultOpt v "raise" with
      | some f => pure (.fails f)
      | none =>
        if boolOf v "return_none" then pure .nothing
        else pure (SearchOutcome.lines (← strD v "grep" "") (← intD v "junk" 0).toNat)
    let override ← severityOpt v "override"
    let r : SearchRule :=
      { id := ← asString id
        defaultSeverity := ← readD (field? v "severity") severityOf .low
        languages := ← readD (field? v "languages") (fun l => return (← asList l).map Value.plain) ["rust"]
        symbol := ← strOpt v "symbol"
        appliesFault := ← faultOpt v "applies_raise"
        outcome }
    return r.rule { severity := override }
  | none =>
    let id ← str v "id"
    match detector? id with
    | none => valueError (UnknownRule.message ⟨id⟩)
    | some d => return d.rule { severity := ← severityOpt v "severity", options := ← entriesD v "options" }

def rulesOf (v : Value) : Reading (List Rule) := do
  match ← field v "rules" with
  | .str _ => return builtinDetectors.map fun d => d.rule {}
  | r => (← asList r).mapM ruleOf

end ContractAudit.Description
