import ContractAudit.Description.Reader
import ContractAudit.Report.Aggregate

/-! # Findings and diagnostics as data -/

namespace ContractAudit.Description
variable (v : Value)

def locationOf : Reading Location := do
  return .ofLines (← str v "path") (← intOpt v "start_line") (← intOpt v "end_line")
    (← strOpt v "symbol")

def severityOf : Reading Severity :=
  (Severity.parse v).mapError fun e => ⟨"ValueError", e.message⟩

def severityOpt (k : String) : Reading (Option Severity) := (truthy? v k).mapM severityOf

/-- A finding with its id and all its parts, or what a finding is made of. -/
def findingOf : Reading Finding := do
  let ruleId ← str v "rule_id"
  let location ← locationOf (← field v "location")
  let severity ← severityOf (← field v "severity")
  let message ← str v "message"
  let description ← textD v "description" ""
  let remediation ← textD v "remediation" ""
  let source ← textD v "source" "static"
  match field? v "id" with
  | some id =>
    let evidence ← listD v "evidence"
    let occurrences ← listOf locationOf v "occurrences"
    return { id := ← asString id, ruleId, severity, location, message, description, remediation,
             evidence := evidence.map .of, fingerprint := ← textD v "fingerprint" "",
             occurrences := if occurrences.isEmpty then [location] else occurrences, source }
  | none =>
    let evidence ← listOr v "evidence"
    return Draft.finding { ruleId, severity, location, message, description, remediation, evidence,
                           snippet := ← strD v "snippet" "", source }

def findingsOf (k : String) : Reading (List Finding) := listOf findingOf v k

def diagnosticOf : Reading Diagnostic := do
  return ⟨← str v "kind", ← str v "source", ← str v "subject", ← str v "message"⟩

def failureOf : Reading RuleFailure := do
  return ⟨← str v "rule_id", ← str v "unit_path", ⟨← str v "error_kind", ← strD v "message" ""⟩⟩

def ruleOrderOf (k : String) : Reading RuleOrder := do
  (← entriesD v k).mapM fun (k, n) => do return (Json.keyText k, ← asInt n)

def diagnosticsOf : Reading (List Diagnostic) := do
  let ds ← listOf diagnosticOf v "diagnostics"
  let fs ← listOf failureOf v "failures"
  return ds ++ fs.map RuleFailure.toDiagnostic

def reportOf : Reading Report := do
  return aggregate (← findingsOf v "findings") (← diagnosticsOf v) (← ruleOrderOf v "rule_order")
    (← entriesD v "metadata")

end ContractAudit.Description
