import ContractAudit.Value.Basic

/-! # Diagnostics -/

namespace ContractAudit

structure Diagnostic where
  kind : String
  source : String
  subject : String
  message : String
deriving DecidableEq, Repr

namespace Diagnostic

def ruleFailure : String := "rule_failure"
def pluginLoadError : String := "plugin_load_error"
def targetUnreachable : String := "target_unreachable"
def campaignTimeout : String := "campaign_timeout"
def jobFailed : String := "job_failed"

def cmp : Diagnostic → Diagnostic → Ordering :=
  compareLex (compareOn kind) (compareLex (compareOn source)
    (compareLex (compareOn subject) (compareOn message)))

def toValue (d : Diagnostic) : Value :=
  .record [("kind", .str d.kind), ("source", .str d.source), ("subject", .str d.subject),
    ("message", .str d.message)]

end Diagnostic

structure Fault where
  kind : String
  message : String
deriving DecidableEq, Repr

def Fault.text (f : Fault) : String :=
  if f.message.isEmpty then f.kind else f.kind ++ ": " ++ f.message

structure RuleFailure where
  ruleId : String
  unitPath : String
  fault : Fault
deriving DecidableEq, Repr

namespace RuleFailure

def toDiagnostic (f : RuleFailure) : Diagnostic :=
  ⟨Diagnostic.ruleFailure, f.ruleId, f.unitPath, f.fault.text⟩

def toValue (f : RuleFailure) : Value :=
  .record [("rule_id", .str f.ruleId), ("unit_path", .str f.unitPath),
    ("error_kind", .str f.fault.kind), ("message", .str f.fault.message)]

end RuleFailure

end ContractAudit
