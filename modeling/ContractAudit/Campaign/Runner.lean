import ContractAudit.Campaign.Timeline
import ContractAudit.Report.Aggregate

/-! # Running campaigns -/

namespace ContractAudit

structure Campaign (τ : Type) where
  id : String
  jobCount : Amount
  perJobTimeout : Seconds
  jobs : List (Job τ)
  findings : List Finding
  diagnostics : List Diagnostic
  stats : CampaignStats
  /-- The most jobs that held a slot at once. -/
  peak : Nat
  cancelReason : Option String

def fuzzRuleOrder : RuleOrder := [(fuzzInvariant, 0), (fuzzCrash, 1), (fuzzTimeout, 2)]

namespace Campaign

variable {τ : Type} (c : Campaign τ)

def ofState (p : Plan τ) (s : CampaignState τ) : Campaign τ where
  id := p.campaignId
  jobCount := p.jobCount
  perJobTimeout := p.perJobTimeout
  jobs := s.jobs.map (·.job)
  findings := s.findings
  diagnostics := s.diagnostics
  stats := s.stats
  peak := s.slots.peak
  cancelReason := s.cancelReason

def isTerminal (c : Campaign τ) : Bool := c.jobs.all (·.state.isTerminal)

def isCancelled : Bool := c.cancelReason.isSome

def isInterrupted : Bool := c.cancelReason == some interruptedReason

def count (s : JobState) : Nat := c.jobs.countP (·.state == s)

def stateCounts : Value :=
  .record (JobState.all.map fun s => (s.name, .int (c.count s)))

def statistics : Value := c.stats.toValue c.peak

def metadata : List (String × Value) :=
  [("kind", .str "fuzz"), ("campaign_id", .str c.id), ("job_count", c.jobCount.toValue),
    ("per_job_timeout", c.perJobTimeout.toValue), ("jobs", .int c.jobs.length),
    ("job_states", c.stateCounts), ("statistics", c.statistics),
    ("cancel_reason", .ofString? c.cancelReason)]

def entries (fields : List (String × Value)) : Entries := fields.map fun (k, v) => (.str k, v)

def report : Report :=
  aggregate c.findings c.diagnostics fuzzRuleOrder (entries c.metadata)

def toValue (c : Campaign τ) : Value :=
  .record [("campaign_id", .str c.id), ("job_count", c.jobCount.toValue),
    ("per_job_timeout", c.perJobTimeout.toValue), ("cancel_reason", .ofString? c.cancelReason),
    ("statistics", c.statistics), ("jobs", .list (c.jobs.map Job.toValue)),
    ("findings", .list (c.findings.map Finding.toValue)),
    ("diagnostics", .list (c.diagnostics.map Diagnostic.toValue))]

end Campaign

inductive RunError where
  | jobCount (n : Amount)
  | jobTimeout (t : Seconds)
  | faulty (f : Fault)
  | alreadyRunning
  | transition (e : InvalidTransition)
  /-- It did not come to its end. -/
  | endless

def RunError.message : RunError → String
  | jobCount n => "job_count must be >= 1, got " ++ n.text
  | jobTimeout t => "per_job_timeout must be positive, got " ++ t.text
  | faulty f => f.message
  | alreadyRunning => "a campaign is already running on this orchestrator"
  | transition e => e.message
  | endless => "the campaign does not end"

structure CampaignRequest (τ : Type) where
  campaignId : String
  targets : List (Target τ)
  strategies : List Strategy
  corpus : Corpus := {}
  /-- How many jobs may run at once, if not as many as the settings say. -/
  jobCount : Option Value := none
  perJobTimeout : Option Value := none
  watches : List Watch := []
  requests : List (τ × Request) := []

structure CampaignRun (τ : Type) where
  campaign : Campaign τ
  history : List (Occurrence τ)
  events : List AuditEvent
  ended : τ

/-- A runner with the request to stop that its next campaign begins with, if any. -/
structure Runner where
  pending : Option String := none
deriving DecidableEq, Repr

namespace Runner

variable {τ : Type} [Clock τ]

/-- The runner after a request to stop; only the first reason counts. -/
def cancel (r : Runner) (reason : String) : Runner := ⟨r.pending <|> some reason⟩

def plan (c : CampaignSettings) (span : Seconds → τ) (q : CampaignRequest τ) :
    Except RunError (Plan τ) := do
  let count ← (Amount.ofOrdered "<" (q.jobCount.getD c.jobCount)).mapError RunError.faulty
  if count.isBelowOne then .error (.jobCount count)
  let timeout ← (Amount.ofOrdered "<=" (q.perJobTimeout.getD c.perJobTimeout)).mapError
    RunError.faulty
  if timeout.isNotPositive then .error (.jobTimeout timeout)
  return {
    campaignId := q.campaignId
    settings := c
    jobCount := count
    perJobTimeout := timeout
    limits := c.limits span timeout
    targets := q.targets
    strategies := q.strategies
    corpus := q.corpus
    watches := q.watches }

def startEvent (p : Plan τ) : AuditEvent :=
  .sessionStart (.record [("kind", .str "fuzz"), ("campaign_id", .str p.campaignId),
    ("jobs", .int p.assignments.length), ("job_count", p.jobCount.toValue),
    ("per_job_timeout", p.perJobTimeout.toValue)])

def finished (p : Plan τ) (s : CampaignState τ) : CampaignRun τ :=
  let campaign := Campaign.ofState p s
  { campaign
    history := s.history.reverse
    events := startEvent p :: s.reported.reverse ++ [.sessionEnd campaign.statistics]
    ended := s.now }

def patience : Nat := 1000000000

def runPlan (p : Plan τ) (pending : Option String) (requests : List (τ × Request)) :
    Except RunError (CampaignRun τ) :=
  match (Timeline.initial p pending requests).run p patience with
  | .error e => .error (.transition e)
  | .ok none => .error .endless
  | .ok (some s) => .ok (finished p s)

def run (r : Runner) (c : CampaignSettings) (span : Seconds → τ) (q : CampaignRequest τ) :
    Except RunError (CampaignRun τ) × Runner :=
  match plan c span q with
  | .error e => (.error e, r)
  | .ok p => (runPlan p r.pending q.requests, {})

/-- A campaign with nothing to do, asked for at some moment after the start of another: it is refused
    as long as the other one runs. -/
def runAgain (r : Runner) (c : CampaignSettings) (span : Seconds → τ) (first : CampaignRun τ)
    (moment : τ) : Except RunError (CampaignRun τ) × Runner :=
  if Clock.before moment first.ended then (.error .alreadyRunning, r)
  else r.run c span { campaignId := first.campaign.id, targets := [], strategies := [] }

end Runner

end ContractAudit
