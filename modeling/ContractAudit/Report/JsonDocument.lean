import ContractAudit.Report.Basic

/-! # JSON reports -/

namespace ContractAudit.JsonDocument

structure Options where
  pretty : Bool := true
  evidence : Bool := true

def bySeverity (r : Report) : Value :=
  .record (Severity.descending.map fun s => (s.name, .strings ((r.ofSeverity s).map (·.id))))

def findingValue (o : Options) (f : Finding) : Value :=
  match f.toValue with
  | .map m => .map (if o.evidence then m else m.filter fun e => e.1 != .str "evidence")
  | v => v

/-- The metadata written over the stamp of the tool. -/
def stampedMetadata (r : Report) : Entries :=
  Entries.overlay [(.str "tool", .str toolName), (.str "version", .str toolVersion)]
    r.sortedMetadata

def toValue (o : Options) (r : Report) : Value :=
  .record [("metadata", .map (stampedMetadata r)), ("summary", Report.countsValue r.summary),
    ("by_rule", Report.countsValue r.byRule),
    ("findings", .list (r.findings.map (findingValue o))),
    ("diagnostics", .list (r.diagnostics.map Diagnostic.toValue)),
    ("by_severity", bySeverity r)]

def Options.format (o : Options) : Json.Format := if o.pretty then Json.pretty else Json.sortedLine

def render (o : Options) (r : Report) : String :=
  Json.render o.format (toValue o r) ++ if o.pretty then "\n" else ""

/-- The document of a report, if the report can be written. -/
def write? (o : Options) (r : Report) : Option String :=
  (Json.dumps? o.format (toValue o r)).map (· ++ if o.pretty then "\n" else "")

end ContractAudit.JsonDocument
