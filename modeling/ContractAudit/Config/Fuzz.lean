import ContractAudit.Config.Amount
import ContractAudit.Config.Rules
import ContractAudit.Yaml.Data

/-! # The configuration of scans and campaigns -/

namespace ContractAudit

def readConfigFile (t : Node) (name key : String) : Except ConfigError Yaml.Data :=
  match t.read (FilePath.ofString name) with
  | .error e => refuse key (.unreadable name e.message)
  | .ok f => match Text.decode f.bytes with
    | .error e => refuse key (.unreadable name e.message)
    | .ok text => match Yaml.parse (String.ofList (Text.unifyNewlines text)) with
      | .ok d => .ok d
      | .error (.unmade f) => .error (.faulty f)
      | .error _ => refuseAll (.badYaml name)

def RuleConfig.load (t : Node) (file : String) : Except ConfigError RuleConfig :=
  if t.isFile (FilePath.ofString file) then do
    RuleConfig.ofValue (← readConfigFile t file "config").toValue
  else refuseAll (.configMissing file)

def defaultOutput : String := "./solsec-reports"

def defaultFormats : List String := ["json", "html"]

structure ScanConfig where
  path : String := "."
  config : Option String := none
  output : String := defaultOutput
  formats : List Value := []
  jsonOnly : Bool := false
  htmlOnly : Bool := false
  noOpen : Bool := false
  failOnCritical : Bool := false
  mode : Value := .str "sequential"
  maxWorkers : Value := .int 4
  pluginDir : Option String := none
  /-- The configuration of rules, which counts before the file. -/
  rules : Option RuleConfig := none

namespace ScanConfig

def formatName (s : String) : String :=
  let name := Text.lower (Text.strip s)
  if name == "md" then "markdown" else name

def formatNames (done : List String) : List Value → Except ConfigError (List String)
  | [] => .ok done
  | .str s :: rest =>
    let name := formatName s
    if !supportedFormats.contains name then refuse "format" (.unofferedFormat name)
    else formatNames (if done.contains name then done else done ++ [name]) rest
  | v :: _ => .error (.notText v.kindName)

def resolveFormats (c : ScanConfig) : Except ConfigError (List String) :=
  if c.jsonOnly && c.htmlOnly then refuseAll .exclusiveFormats
  else if c.jsonOnly then .ok ["json"]
  else if c.htmlOnly then .ok ["html"]
  else formatNames [] (if c.formats.isEmpty then defaultFormats.map .str else c.formats)

def loadRules (c : ScanConfig) (t : Node) : Except ConfigError RuleConfig :=
  match c.rules with
  | some r => .ok r
  | none => match c.config.filter (!·.isEmpty) with
    | some file => RuleConfig.load t file
    | none => .ok {}

def validate (c : ScanConfig) : Except ConfigError Unit := do
  if !(ExecutionMode.names.map Value.str).contains c.mode then refuse "mode" (.unknownMode c.mode)
  if (← (Amount.ofOrdered "<" c.maxWorkers).mapError ConfigError.faulty).isBelowOne then
    refuse "max_workers" .belowOne
  discard c.resolveFormats

end ScanConfig

structure CampaignSettings where
  /-- How many jobs may run at once, as given: it is looked at when a campaign begins. -/
  jobCount : Value := .int 4
  perJobTimeout : Value := .float 300.0
  /-- When the whole campaign is to end; zero stands for never. -/
  campaignTimeout : Option Seconds := none
  maxExecutionsPerJob : Option Amount := some (.whole 10000)
  /-- How long one execution may take; zero stands for any time. -/
  executionTimeout : Option Seconds := none
  timeoutsAsFindings : Bool := false
  timeoutSeverity : Severity := .low
  crashSeverity : Severity := .high
  violationSeverity : Severity := .critical
  gracePeriod : Option Seconds := some (.double 5.0)
  seed : Value := .null

def CampaignSettings.toValue (c : CampaignSettings) : Value :=
  .record [("job_count", c.jobCount), ("per_job_timeout", c.perJobTimeout),
    ("campaign_timeout", Amount.toValue? c.campaignTimeout),
    ("max_executions_per_job", Amount.toValue? c.maxExecutionsPerJob),
    ("execution_timeout", Amount.toValue? c.executionTimeout),
    ("timeouts_as_findings", .bool c.timeoutsAsFindings),
    ("timeout_severity", .str c.timeoutSeverity.name),
    ("crash_severity", .str c.crashSeverity.name),
    ("violation_severity", .str c.violationSeverity.name),
    ("grace_period", Amount.toValue? c.gracePeriod), ("seed", c.seed)]

/-- The settings, if a job that runs out of time is as severe as it may be. -/
def CampaignSettings.checked (c : CampaignSettings) : Except Fault CampaignSettings :=
  if c.timeoutSeverity == .low || c.timeoutSeverity == .medium then .ok c
  else .error ⟨"ValueError", "timeout_severity must be low or medium, got " ++ c.timeoutSeverity.name⟩

structure FuzzConfig where
  path : String := "."
  timeout : Value := .float 300.0
  jobs : Value := .int 4
  output : String := defaultOutput
  campaignTimeout : Value := .null
  timeoutsAsFindings : Bool := false
  timeoutSeverity : Value := .str "low"
  crashSeverity : Value := .str "high"
  violationSeverity : Value := .str "critical"
  gracePeriod : Value := .float 5.0
  maxExecutionsPerJob : Value := .int 10000
  executionTimeout : Value := .null
  seed : Value := .null
  seedDir : Option String := none
  formats : List Value := [.str "json"]
  pluginDir : Option String := none

namespace FuzzConfig

/-- A limit that has to be a number; `sign` is how it is compared. -/
def amountAt (sign : String) (v : Value) : Except ConfigError Amount :=
  (Amount.ofOrdered sign v).mapError .faulty

def limitAt (sign : String) (v : Value) : Except ConfigError (Option Amount) :=
  if v.isNull then .ok none else some <$> amountAt sign v

def campaign (c : FuzzConfig) : Except ConfigError CampaignSettings := do
  if (← amountAt "<" c.jobs).isBelowOne then refuse "jobs" .belowOne
  if (← amountAt "<=" c.timeout).isNotPositive then refuse "timeout" .notPositive
  let campaignTimeout ← limitAt "<=" c.campaignTimeout
  if campaignTimeout.any Amount.isNotPositive then refuse "campaign_timeout" .notPositive
  let executionTimeout ← limitAt "<=" c.executionTimeout
  if executionTimeout.any Amount.isNotPositive then refuse "execution_timeout" .notPositive
  let gracePeriod ← amountAt "<" c.gracePeriod
  if gracePeriod.isNegative then refuse "grace_period" .negative
  let maxExecutionsPerJob ← limitAt "<" c.maxExecutionsPerJob
  if maxExecutionsPerJob.any Amount.isBelowOne then refuse "max_executions_per_job" .belowOne
  let timeoutSeverity ← severityAt "timeout_severity" c.timeoutSeverity
  if timeoutSeverity != .low && timeoutSeverity != .medium then
    refuse "timeout_severity" .notLowOrMedium
  let crashSeverity ← severityAt "crash_severity" c.crashSeverity
  let violationSeverity ← severityAt "violation_severity" c.violationSeverity
  match c.formats.find? fun f => !(supportedFormats.map Value.str).contains f with
  | some f => refuse "format" (.unsupportedFormat f)
  | none =>
    return {
      jobCount := c.jobs
      perJobTimeout := c.timeout
      campaignTimeout
      maxExecutionsPerJob
      executionTimeout
      timeoutsAsFindings := c.timeoutsAsFindings
      timeoutSeverity
      crashSeverity
      violationSeverity
      gracePeriod := some gracePeriod
      seed := c.seed }

end FuzzConfig

end ContractAudit
