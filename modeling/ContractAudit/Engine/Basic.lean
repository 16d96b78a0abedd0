import ContractAudit.Audit.Entry
import ContractAudit.Config.Amount
import ContractAudit.Report.Aggregate
import ContractAudit.Rule.Basic

/-! # The rule engine -/

namespace ContractAudit

inductive Outcome where
  | skipped
  | found (ruleId unit : String) (findings : List Finding)
  | failed (failure : RuleFailure)

namespace Outcome

def findings : Outcome → List Finding
  | found _ _ fs => fs
  | skipped | failed _ => []

def failures : Outcome → List RuleFailure
  | failed f => [f]
  | skipped | found _ _ _ => []

def events : Outcome → List AuditEvent
  | skipped => []
  | found ruleId unit fs => [.rule (.str ruleId) (.str unit) (.int fs.length)]
  | failed f => [.ofDiagnostic f.toDiagnostic]

end Outcome

def invalidYield (n : Nat) : Fault :=
  ⟨"TypeError", "evaluate() returned " ++ toString n ++ " non-Finding value(s)"⟩

def Rule.check (r : Rule) (u : ScanUnit) (x : Index) : Except Fault (Option (List Finding)) := do
  if ← r.appliesTo u then
    let y ← r.evaluate u x
    if y.invalid = 0 then return some y.findings else throw (invalidYield y.invalid)
  else return none

def Rule.outcome (r : Rule) (u : ScanUnit) (x : Index) : Outcome :=
  match r.check u x with
  | .ok none => .skipped
  | .ok (some fs) => .found r.id u.path fs
  | .error f => .failed ⟨r.id, u.path, f⟩

structure EngineResult where
  findings : List Finding := []
  failures : List RuleFailure := []
  ruleOrder : RuleOrder := []
  units : Nat := 0
  rules : Nat := 0
  events : List AuditEvent := []

namespace Engine
variable (rules : List Rule)

def sortRules : List Rule := rules.mergeSort fun a b => a.id ≤ b.id

/-- The rank of each rule in the given order; of two rules with one id the later counts. -/
def rankRules : RuleOrder :=
  let ranked := rules.zipIdx.map fun (r, i) => (r.id, (i : Int))
  (ranked.map (·.1)).eraseDups.map fun id => (id, (ranked.reverse.lookup id).getD 0)

def unitOutcomes (x : Index) (u : ScanUnit) : List Outcome :=
  rules.map fun r => r.outcome u x

def workers (units : List ScanUnit) (rules : List Rule) : List (List Outcome) :=
  let units := Index.sortUnits units
  let x := Index.ofUnits units
  units.map (unitOutcomes (sortRules rules) x)

def sortFailures (fs : List RuleFailure) : List RuleFailure :=
  fs.mergeSort fun a b =>
    (compareLex (compareOn RuleFailure.unitPath) (compareOn RuleFailure.ruleId) a b).isLE

def collect (units : List ScanUnit) (rules : List Rule) (outcomes : List Outcome) : EngineResult where
  findings := outcomes.flatMap Outcome.findings
  failures := sortFailures (outcomes.flatMap Outcome.failures)
  ruleOrder := rankRules rules
  units := units.length
  rules := rules.length
  events := outcomes.flatMap Outcome.events

def run (units : List ScanUnit) (rules : List Rule) : EngineResult :=
  collect units rules (workers units rules).flatten

def workerCount (asked : Amount) : Amount := if asked.isAboveOne then asked else .whole 1

end Engine

namespace EngineResult

def stats (r : EngineResult) : Value :=
  .record [("units", .int r.units), ("rules", .int r.rules),
    ("raw_findings", .int r.findings.length), ("rule_failures", .int r.failures.length)]

def diagnostics (r : EngineResult) : List Diagnostic := r.failures.map RuleFailure.toDiagnostic

end EngineResult

end ContractAudit
