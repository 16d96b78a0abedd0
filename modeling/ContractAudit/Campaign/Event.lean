import ContractAudit.Campaign.State

/-! # What can happen in a campaign, and what it records -/

namespace ContractAudit

def fuzzCrash : String := "FUZZ-CRASH"
def fuzzInvariant : String := "FUZZ-INVARIANT"
def fuzzTimeout : String := "FUZZ-TIMEOUT"

structure CampaignTimeout where
  campaignId : String
  deadline : Seconds

def shortCampaignId (id : String) : String := String.ofList (id.toList.take 8)

def CampaignTimeout.message (e : CampaignTimeout) : String :=
  "campaign " ++ shortCampaignId e.campaignId ++ " exceeded its "
    ++ Decimal.fixedText 1 e.deadline.toFloat ++ "s deadline"

structure StrategyFailure where
  strategy : String
  reason : String

def StrategyFailure.message (e : StrategyFailure) : String :=
  "strategy '" ++ e.strategy ++ "' failed: " ++ e.reason

namespace JobRun

variable {τ : Type}

def crashEntries (r : JobRun τ) (input : List UInt8) (result : ExecutionResult) : List (String × Value) :=
  [("execution", .int r.job.executions), ("input_hex", .str (Hash.hex input)), ("input_size", .int input.length),
    ("job_id", .str r.job.id), ("strategy", .str r.strategy.name), ("violation", .str result.message)]

def crashFinding (c : CampaignSettings) (r : JobRun τ) (input : List UInt8)
    (result : ExecutionResult) : Finding :=
  let violation := result.status == .violation
  Draft.finding {
    ruleId := if violation then fuzzInvariant else fuzzCrash
    severity := if violation then c.violationSeverity else c.crashSeverity
    location := result.location.getD r.target.location
    message := (if violation then "Invariant violation" else "Crash") ++ " in " ++ r.target.name
      ++ ": " ++ result.message
    description := "Fuzzing " ++ r.target.entryPoint ++ " with the " ++ r.strategy.name
      ++ " strategy produced an input that "
      ++ (if violation then "violates a program invariant" else "crashes the target") ++ "."
    remediation := "Reproduce with the captured input and fix the failing check or panic."
    evidence := [.record (r.crashEntries input result)]
    snippet := r.target.name ++ ":" ++ result.message
    source := "fuzz" }

def timeoutEntries (r : JobRun τ) (timeout : Seconds) : List (String × Value) :=
  [("executions", .int r.job.executions), ("job_id", .str r.job.id), ("strategy", .str r.strategy.name),
    ("timeout", timeout.toValue)]

def timeoutFinding (c : CampaignSettings) (timeout : Seconds) (r : JobRun τ) : Finding :=
  Draft.finding {
    ruleId := fuzzTimeout
    severity := c.timeoutSeverity
    location := r.target.location
    message := r.target.name ++ " did not finish within " ++ timeout.text ++ "s"
    description := "A fuzz job exceeded its deadline, which can indicate unbounded loops or excessive compute."
    remediation := "Check the target for inputs that make execution unbounded."
    evidence := [.record (r.timeoutEntries timeout)]
    snippet := "timeout:" ++ r.target.name
    source := "fuzz" }

end JobRun

namespace CampaignState

variable {τ : Type} (s : CampaignState τ)

def addFinding (i : Nat) (f : Finding) : CampaignState τ :=
  { s.modifyJob i (fun r => { r with job := { r.job with finding := some f } }) with
    findings := s.findings ++ [f] }

def recordResult (p : Plan τ) (s : CampaignState τ) (i : Nat) (input : List UInt8)
    (result : ExecutionResult) : CampaignState τ :=
  match s.jobs[i]? with
  | none => s
  | some r =>
    let job := { r.job with executions := r.job.executions + 1 }
    let s := { s.modifyJob i (fun r => { r with job }) with stats := s.stats.countResult result }
    if result.failed then
      let f := r.crashFinding p.settings input result
      { s.addFinding i f with reported := .ofFinding f :: s.reported }
    else s

def recordTimeout (p : Plan τ) (s : CampaignState τ) (i : Nat) : CampaignState τ :=
  match s.jobs[i]? with
  | none => s
  | some r =>
    if p.settings.timeoutsAsFindings then
      s.addFinding i (r.timeoutFinding p.settings p.perJobTimeout)
    else s

def recordFailure (i : Nat) (kind source message : String) : CampaignState τ :=
  match s.jobs[i]? with
  | none => s
  | some r =>
    let d : Diagnostic := ⟨kind, source, r.job.id, message⟩
    { s.modifyJob i (fun r => { r with job := { r.job with error := some message } }) with
      diagnostics := s.diagnostics ++ [d]
      reported := .ofDiagnostic d :: s.reported }

def recordDeadline (p : Plan τ) (s : CampaignState τ) : CampaignState τ :=
  match p.settings.campaignTimeout with
  | none => s
  | some deadline =>
    { s with diagnostics := s.diagnostics ++ [⟨Diagnostic.campaignTimeout, "orchestrator",
        p.campaignId, CampaignTimeout.message ⟨p.campaignId, deadline⟩⟩] }

end CampaignState

inductive CampaignEvent (τ : Type) where
  | enter (job : Nat)
  | prepared (job : Nat)
  | choose (job : Nat)
  | executed (job : Nat)
  | expire (job : Nat)
  | abort (job : Nat)
  | cancel (reason : String)
  | deadline
  | tick (now : τ)

namespace CampaignState

variable {τ : Type} [Clock τ] (p : Plan τ) (s : CampaignState τ)

def endOf (duration : Option τ) : Option τ :=
  duration.map (Clock.later s.now)

/-- A job gets a slot. If the campaign is to stop, the job is cancelled and gives it back; else the
    job runs and prepares its target. -/
def enter (i : Nat) (r : JobRun τ) : Attempt (CampaignState τ) := do
  let s := { s with slots := s.slots.take i }
  if s.isCancelled then s.finish p i .cancelled
  else
    let s ← s.move p i .running
    return s.setActivity i (.preparing (s.endOf r.target.prepare.duration) r.target.prepare.outcome)

def timeOut (i : Nat) : Attempt (CampaignState τ) :=
  (s.recordTimeout p i).finish p i .timedOut

def fail (i : Nat) (kind source message : String) : Attempt (CampaignState τ) :=
  (s.recordFailure i kind source message).finish p i .failed

def obstruct (i : Nat) (r : JobRun τ) : Obstacle → Attempt (CampaignState τ)
  | .timeout _ => s.timeOut p i
  | .unreachable _ reason => s.fail p i Diagnostic.targetUnreachable r.target.name reason
  | .fault f => s.fail p i Diagnostic.jobFailed r.target.name f.described

def execute (i : Nat) (r : JobRun τ) (input : List UInt8) : CampaignState τ :=
  let reaction := (r.target.react (s.calls.getD r.place 0) input).within p.limits.execution
  { s.setActivity i (.executing input (s.endOf reaction.duration) reaction.outcome) with
    calls := s.calls.modify r.place (· + 1)
    history := .executes i input :: s.history }

/-- A job chooses its next input. It ends instead if the campaign is to stop, if it has done as many
    executions as it may, or if there is no next input. -/
def choose (i : Nat) (r : JobRun τ) : Attempt (CampaignState τ) :=
  if s.isCancelled then s.finish p i .cancelled
  else if p.settings.maxExecutionsPerJob.any (·.isReachedBy r.job.executions) then
    s.finish p i .completed
  else match r.strategy.next p.corpus r.job.executions r.generator with
    | .error f => s.fail p i Diagnostic.jobFailed r.strategy.name f.described
    | .ok (none, _) => s.finish p i .completed
    | .ok (some input, generator) =>
      .ok ((s.modifyJob i fun r => { r with generator }).execute p i r input)

/-- An execution ends. After a failure the job is over, else it goes on. -/
def executed (i : Nat) (r : JobRun τ) (input : List UInt8) :
    Except Obstacle ExecutionResult → Attempt (CampaignState τ)
  | .error o => s.obstruct p i r o
  | .ok result =>
    let s := s.recordResult p i input result
    if result.failed then s.finish p i .crashed else .ok (s.setActivity i .ready)

def apply : CampaignEvent τ → Attempt (CampaignState τ)
  | .enter i => match s.jobs[i]? with
    | some r => match r.activity with
      | .waiting => if s.slots.isFull then .ok s else s.enter p i r
      | _ => .ok s
    | none => .ok s
  | .prepared i => match s.jobs[i]? with
    | some r => match r.activity with
      | .preparing _ (.ok ()) => .ok (s.setActivity i .ready)
      | .preparing _ (.error o) => s.obstruct p i r o
      | _ => .ok s
    | none => .ok s
  | .choose i => match s.jobs[i]? with
    | some r => match r.activity with
      | .ready => s.choose p i r
      | _ => .ok s
    | none => .ok s
  | .executed i => match s.jobs[i]? with
    | some r => match r.activity with
      | .executing input _ outcome => s.executed p i r input outcome
      | _ => .ok s
    | none => .ok s
  | .expire i => match s.jobs[i]? with
    | some r => match r.activity with
      | .preparing _ _ | .ready | .executing _ _ _ => s.timeOut p i
      | _ => .ok s
    | none => .ok s
  | .abort i => match s.jobs[i]? with
    | some r => match r.activity with
      | .over => .ok s
      | _ => s.finish p i .cancelled
    | none => .ok s
  | .cancel reason => .ok (s.cancel reason)
  | .deadline => .ok ((s.recordDeadline p).cancel "campaign deadline reached")
  | .tick now => .ok { s with now }

def applyAll (events : List (CampaignEvent τ)) : Attempt (CampaignState τ) :=
  events.foldlM (apply p) s

end CampaignState

end ContractAudit
