import ContractAudit.Campaign.Runner
import ContractAudit.Files.Discovery
import ContractAudit.Fuzz.Command
import ContractAudit.Plugin.Registry
import ContractAudit.Report.Format

/-! # Fuzz runs -/

namespace ContractAudit

structure FuzzOutcome (τ : Type) where
  campaign : Campaign τ
  report : Report
  artifacts : List (ReportFormat × String)
  events : List AuditEvent

namespace FuzzConfig

variable {τ : Type} [Clock τ] (c : FuzzConfig)

def strategies (plugins : Registry) : List Strategy := Strategy.defaults ++ plugins.strategies

def corpus (t : Node) : Corpus :=
  match c.seedDir.filter (!·.isEmpty) with
  | some dir => .ofDirectory t (FilePath.ofString dir) none
  | none => {}

def targets (m : Programs τ) (t : Node) : Except ConfigError (List (Target τ)) :=
  let root := FilePath.ofString c.path
  if !t.exists? root then refuse "path" (.pathMissing c.path)
  else match Discovery.harnesses t root [] with
    | [] => refuse "path" (.noHarness c.path)
    | found =>
      let sources := if t.isDir root then root else root.parent
      .ok (found.map fun p => (Command.ofHarness t (some sources) p).target m t)

def reportFormats : List ReportFormat := (c.formats.map Value.plain).filterMap ReportFormat.ofName?

def report (plugins : Registry) (campaign : Campaign τ) : Report :=
  aggregate campaign.findings (campaign.diagnostics ++ plugins.diagnostics) fuzzRuleOrder
    (Campaign.entries (campaign.metadata ++ [("target", .str c.path)]))

def request (t : Node) (plugins : Registry) (targets : List (Target τ))
    (campaignId : String) (requests : List (τ × Request)) : CampaignRequest τ where
  campaignId
  targets
  strategies := strategies plugins
  corpus := c.corpus t
  requests

def outcome (plugins : Registry) (r : CampaignRun τ) : FuzzOutcome τ :=
  let report := c.report plugins r.campaign
  { campaign := r.campaign
    report
    artifacts := report.renderAll c.reportFormats
    events := r.events }

def run (c : FuzzConfig) (settings : CampaignSettings) (t : Node) (span : Seconds → τ)
    (plugins : Registry) (targets : List (Target τ)) (campaignId : String)
    (requests : List (τ × Request)) : Except RunError (FuzzOutcome τ) := do
  let r ← (({} : Runner).run settings span
    (c.request t plugins targets campaignId requests)).1
  return c.outcome plugins r

end FuzzConfig

end ContractAudit
