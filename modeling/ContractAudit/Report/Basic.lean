import ContractAudit.Finding.Basic
import ContractAudit.Finding.Diagnostic

/-! # Reports -/

namespace ContractAudit

def toolName : String := "solsec"

def toolVersion : String := "0.4.0"

/-- A value of the metadata as a text: a list, tuple or map by its canonical JSON, null as a dash. -/
def formatValue : Value → String
  | .list items => Json.canonical (.list items)
  | .tuple items => Json.canonical (.tuple items)
  | .map entries => Json.canonical (.map entries)
  | .scalar .null => "-"
  | v => v.plain

def metadataText (metadata : Entries) (key default : String) : String :=
  match metadata.get key with
  | some v => v.plain
  | none => default

structure Report where
  findings : List Finding := []
  diagnostics : List Diagnostic := []
  metadata : Entries := []
deriving DecidableEq

namespace Report
variable (r : Report)

def count (s : Severity) : Nat := r.findings.countP (·.severity == s)

def ofSeverity (s : Severity) : List Finding := r.findings.filter (·.severity == s)

def summary : List (String × Nat) :=
  Severity.descending.map (fun s => (s.name, r.count s)) ++ [("total", r.findings.length)]

def ruleIds : List String :=
  (r.findings.map (·.ruleId)).eraseDups.mergeSort (· ≤ ·)

def byRule : List (String × Nat) :=
  r.ruleIds.map fun id => (id, r.findings.countP (·.ruleId == id))

def hasCritical : Bool := r.count .critical != 0

/-- The run is to be refused: critical findings count and there is one. -/
def gate (failOnCritical : Bool) : Bool := failOnCritical && r.hasCritical

def countsValue (counts : List (String × Nat)) : Value :=
  .record (counts.map fun (k, n) => (k, .int n))

def sortedMetadata : Entries :=
  r.metadata.mergeSort fun a b => Json.keyText a.1 ≤ Json.keyText b.1

def toValue (r : Report) : Value :=
  .record [("metadata", .map r.sortedMetadata), ("summary", countsValue r.summary),
    ("by_rule", countsValue r.byRule), ("findings", .list (r.findings.map Finding.toValue)),
    ("diagnostics", .list (r.diagnostics.map Diagnostic.toValue))]

end Report

end ContractAudit
