import ContractAudit.Config.Fuzz
import ContractAudit.Engine.Basic
import ContractAudit.Files.Discovery
import ContractAudit.Plugin.Registry
import ContractAudit.Report.Format

/-! # Scans -/

namespace ContractAudit

structure ScanOutcome where
  report : Report
  artifacts : List (ReportFormat × String)
  /-- There is a critical finding, and that was to be told. -/
  criticalPresent : Bool
  failures : List RuleFailure
  stats : Value
  events : List AuditEvent

namespace Report

def atLeast (r : Report) (least : Severity) : Report :=
  { r with findings := r.findings.filter fun f => decide (least ≤ f.severity) }

end Report

namespace ScanConfig
variable (c : ScanConfig)

def formatsOf (names : List String) : List ReportFormat := names.filterMap ReportFormat.ofName?

def allRules (c : RuleConfig) (plugins : Registry) : List Rule :=
  c.builtinRules ++ plugins.rules.filter fun r => c.isEnabled r.id

def discover (t : Node) (ignored : List String) : Except ConfigError (List ScanUnit) :=
  let root := FilePath.ofString c.path
  if t.exists? root then .ok (Discovery.units t root ignored)
  else refuse "path" (.pathMissing c.path)

def metadata (rules : RuleConfig) (r : EngineResult) : Entries :=
  [(.str "kind", .str "scan"), (.str "target", .str c.path), (.str "units", .int r.units),
    (.str "rules", .int r.rules), (.str "raw_findings", .int r.findings.length),
    (.str "min_severity", .str rules.minSeverity.name)]

def report (rules : RuleConfig) (plugins : Registry) (r : EngineResult) : Report :=
  (aggregate r.findings (r.diagnostics ++ plugins.diagnostics) r.ruleOrder
    (c.metadata rules r)).atLeast rules.minSeverity

def startEvent (rules : List Rule) : AuditEvent :=
  .sessionStart (.record [("kind", .str "scan"), ("target", .str c.path),
    ("rules", .strings (rules.map (·.id)))])

def endEvents (r : Report) : List AuditEvent :=
  r.findings.map AuditEvent.ofFinding ++ [.sessionEnd (Report.countsValue r.summary)]

def scan (formats : List ReportFormat) (rules : RuleConfig) (plugins : Registry)
    (units : List ScanUnit) : ScanOutcome :=
  let all := allRules rules plugins
  let result := Engine.run units all
  let report := c.report rules plugins result
  { report
    artifacts := report.renderAll formats
    criticalPresent := report.gate c.failOnCritical
    failures := result.failures
    stats := result.stats
    events := c.startEvent all :: result.events ++ endEvents report }

def run (t : Node) (plugins : Registry) (given : Option (List ScanUnit)) :
    Except ConfigError ScanOutcome := do
  c.validate
  let formats ← c.resolveFormats
  let rules ← c.loadRules t
  let units ← match given with
    | some units => pure units
    | none => c.discover t rules.ignoredPaths
  return c.scan (formatsOf formats) rules plugins units

end ScanConfig

end ContractAudit
