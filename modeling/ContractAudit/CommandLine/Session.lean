import ContractAudit.Audit.Log
import ContractAudit.CommandLine.Arguments
import ContractAudit.Config.Tool
import ContractAudit.Run.Fuzz
import ContractAudit.Run.Scan

/-! # Running a command line -/

namespace ContractAudit.CommandLine

inductive LogLevel where
  | info
  | warning
  | error
deriving DecidableEq, Repr

namespace LogLevel

def name : LogLevel → String
  | info => "INFO"
  | warning => "WARNING"
  | error => "ERROR"

def isUrgent : LogLevel → Bool
  | info => false
  | warning | error => true

end LogLevel

structure LogLine where
  level : LogLevel
  message : String
deriving DecidableEq, Repr

structure Machine (τ : Type) where
  programs : Programs τ
  loader : PluginLoader
  span : Seconds → τ
  environment : Environment := []
  home : FilePath := ⟨"", []⟩
  sessionId : String
  moment : Moment

structure Trace where
  tree : Node
  stdout : String := ""
  log : List LogLine := []
  opened : List FilePath := []
  audit : Option AuditLog := none

inductive SessionError where
  | config (e : ConfigError)
  | file (e : FileError)
  | store (e : StoreError)
  | run (e : RunError)

def SessionError.message : SessionError → String
  | config e => e.message
  | file e => e.message
  | store e => e.message
  | run e => e.message

abbrev Session := ExceptT SessionError (StateM Trace)

namespace Session

def lift {ε α : Type} (reason : ε → SessionError) : Except ε α → Session α
  | .ok a => pure a
  | .error e => throw (reason e)

def log (level : LogLevel) (message : String) : Session Unit :=
  modify fun s => { s with log := s.log ++ [⟨level, message⟩] }

def logInfo (message : String) : Session Unit := log .info message

def print (line : String) : Session Unit :=
  modify fun s => { s with stdout := s.stdout ++ line ++ "\n" }

def changeFiles (change : Node → Except FileError Node) : Session Unit := do
  let t ← lift .file (change (← get).tree)
  modify fun s => { s with tree := t }

def appendLines (path : FilePath) (lines : List String) (t : Node) : Except FileError Node :=
  let old := match t.read path with
    | .ok f => f.bytes
    | .error _ => []
  t.write path { bytes := old ++ lines.flatMap fun l => Hash.utf8 (l ++ "\n") }

def record (now : Moment) (events : List AuditEvent) : Session Unit := do
  match (← get).audit with
  | none => pure ()
  | some old =>
    let new := old.recordAll now events
    modify fun s => { s with audit := some new }
    match new.file?, new.lines.drop old.lines.length with
    | some path, l :: ls => changeFiles (appendLines path (l :: ls))
    | _, _ => pure ()

def writeReports (home : FilePath) (artifacts : List (ReportFormat × String)) (output name : String) :
    Session (List (ReportFormat × FilePath)) := do
  let some dir := (FilePath.ofString output).expandHome? home | throw (.store .unknownHome)
  changeFiles (·.makeDirs dir)
  let paths := artifacts.map fun (f, text) => (f, dir.child (name ++ "." ++ f.extension), text)
  for (_, path, text) in paths do
    changeFiles (·.write path { bytes := Hash.utf8 text })
  for (_, path, _) in paths do
    logInfo ("Report generated: " ++ path.toText)
  return paths.map fun (f, path, _) => (f, path)

def rule : String := String.ofList (List.replicate 50 '=')

def logSummary (title : String) (r : Report) : Session Unit := do
  logInfo rule
  logInfo title
  logInfo ("Findings: " ++ toString r.findings.length)
  for s in Severity.descending do
    logInfo ("  " ++ Text.capitalize s.name ++ ": " ++ toString (r.count s))
  logInfo rule

end Session

section Commands

open Session

variable {τ : Type} [Clock τ] (m : Machine τ) (tool : ToolSettings) (a : Invocation)

def orText (given : Option String) (usual : String) : String := (given.filter (!·.isEmpty)).getD usual

def store (m : Machine τ) (dir : String) : Session PluginStore :=
  match (FilePath.ofString dir).expandHome? m.home with
  | some dir => pure
      { dir, reserved := builtinRuleIds, loader := m.loader, home := m.home }
  | none => throw (.store .unknownHome)

/-- What the store came to; if it failed, the audit log gets what it was told before. -/
def liftStore {α : Type} : Except StoreFailure α → Session α
  | .ok a => pure a
  | .error e => do
    record m.moment e.events
    throw (.store e.error)

def loadPlugins (dir : String) : Session Registry := do
  let r ← liftStore m ((← store m dir).registry (← get).tree)
  record m.moment r.events
  if !r.descriptors.isEmpty || !r.errors.isEmpty then
    logInfo ("Plugins: " ++ toString r.descriptors.length ++ " loaded, "
      ++ toString r.errors.length ++ " rejected")
  return r

def ScanArguments.toConfig (a : ScanArguments) (tool : ToolSettings) : ScanConfig where
  path := a.path
  config := a.config
  output := orText a.output tool.outputDir
  formats :=
    if a.formats.isEmpty && !a.jsonOnly && !a.htmlOnly then tool.formats.map Yaml.Data.toValue
    else a.formats.map .str
  jsonOnly := a.jsonOnly
  htmlOnly := a.htmlOnly
  noOpen := a.noOpen
  failOnCritical := a.failOnCritical
  mode := .str (orText a.mode tool.mode)
  maxWorkers := .int (a.workers.getD tool.maxWorkers)
  pluginDir := some (orText a.pluginDir tool.pluginDir)

def runScan (a : ScanArguments) : Session Nat := do
  let c := a.toConfig tool
  lift .config c.validate
  let plugins ← loadPlugins m (orText a.pluginDir tool.pluginDir)
  logInfo ("Scanning " ++ c.path)
  let outcome ← lift .config (c.run (← get).tree plugins none)
  record m.moment outcome.events
  let report := outcome.report
  logSummary "SCAN COMPLETE" report
  if !report.diagnostics.isEmpty then
    log .warning (toString report.diagnostics.length ++ " diagnostics recorded (see report)")
  let paths ← writeReports m.home outcome.artifacts c.output "scan-report"
  if !c.noOpen then
    match paths.lookup .html with
    | some path => modify fun s => { s with opened := s.opened ++ [path] }
    | none => pure ()
  if outcome.criticalPresent then
    log .error (toString (report.count .critical) ++ " critical findings")
    return 1
  return 0

def FuzzArguments.toConfig (a : FuzzArguments) (tool : ToolSettings) : FuzzConfig where
  path := a.path
  timeout := .float (a.timeout.getD tool.perJobTimeout)
  jobs := .int (a.jobs.getD tool.jobCount)
  output := orText a.output tool.outputDir
  campaignTimeout := Amount.toValue? (a.campaignTimeout.map .double)
  timeoutsAsFindings := a.timeoutsAsFindings
  timeoutSeverity := .str a.timeoutSeverity
  maxExecutionsPerJob := (a.maxExecutions.map .int).getD ({} : FuzzConfig).maxExecutionsPerJob
  executionTimeout := Amount.toValue? (a.executionTimeout.map .double)
  seed := .ofInt? a.seed
  seedDir := a.seedDir
  formats := match a.formats with
    | [] => [.str "json"]
    | formats => formats.map fun f =>
      .str (if Text.lower f == "md" then "markdown" else Text.lower f)
  pluginDir := some (orText a.pluginDir tool.pluginDir)

def runFuzz (a : FuzzArguments) : Session Nat := do
  let c := a.toConfig tool
  let settings ← lift .config c.campaign
  let plugins ← loadPlugins m (orText a.pluginDir tool.pluginDir)
  let tree := (← get).tree
  let targets ← lift .config (c.targets m.programs tree)
  logInfo ("Fuzzing " ++ toString targets.length ++ " targets with " ++ c.jobs.plain ++ " workers")
  let outcome ← lift .run (c.run settings tree m.span plugins targets m.sessionId [])
  record m.moment outcome.events
  let campaign := outcome.campaign
  logSummary (if campaign.isInterrupted then "CAMPAIGN INTERRUPTED" else "CAMPAIGN COMPLETE")
    outcome.report
  logInfo ("Jobs: " ++ campaign.stateCounts.shown)
  logInfo ("Statistics: " ++ campaign.statistics.shown)
  discard (writeReports m.home outcome.artifacts c.output "fuzz-report")
  if campaign.isInterrupted then
    logInfo "Fuzz campaign interrupted by user; partial report written"
    return 130
  return 0

def runPlugin (a : PluginArguments) : Session Nat := do
  let s ← store m (orText a.pluginDir tool.pluginDir)
  let (result, tree) ← liftStore m (s.run (← get).tree a.action a.path)
  modify fun s => { s with tree }
  record m.moment result.events
  print result.message
  for d in result.descriptors do
    print ("  " ++ d.name ++ " " ++ d.version ++ " (api " ++ d.apiVersion ++ ") ["
      ++ ", ".intercalate d.capabilities ++ "]")
    for id in d.ruleIds do print ("    rule " ++ id)
    for name in d.strategyNames do print ("    strategy " ++ name)
  for e in result.errors do
    print ("  rejected " ++ e.plugin ++ ": " ++ e.reason)
  return if result.success then 0 else 2

def loadSettings (t : Node) : Except ConfigError ToolSettings :=
  match a.settings.filter (!·.isEmpty) with
  | some file => ToolSettings.load t m.environment file
  | none => ToolSettings.withEnvironment {} m.environment

def openAudit (dir : Option String) : Session Unit := do
  match dir.filter (!·.isEmpty) with
  | none => pure ()
  | some d =>
    changeFiles (·.makeDirs (FilePath.ofString d))
    modify fun s => { s with
      audit := some (.start { sessionId := m.sessionId, logDir := some d, console := a.verbose } m.moment) }

def runTask (task : Task) : Session Nat := do
  let tool ← lift .config (loadSettings m a (← get).tree)
  openAudit m a (a.logDir.filter (!·.isEmpty) <|> tool.logDir)
  match task with
  | .scan args => runScan m tool args
  | .fuzz args => runFuzz m tool args
  | .plugin args => runPlugin m tool args

inductive Ending where
  | status (n : Nat)
  | halted (h : Halt)
  | failed (e : SessionError)

structure Outcome where
  ending : Ending
  trace : Trace

def shownLog (lines : List LogLine) : List LogLine :=
  if a.quiet && !a.verbose then lines.filter (·.level.isUrgent) else lines

/-- The outcome of a task: a refused configuration is logged, and ends with status 2. -/
def finish : Except SessionError Nat × Trace → Outcome
  | (.ok n, s) => ⟨.status n, { s with log := shownLog a s.log }⟩
  | (.error (.config (.invalid e)), s) =>
    let line := LogLine.mk .error ("Configuration error: " ++ e.message)
    ⟨.status 2, { s with log := shownLog a (s.log ++ [line]) }⟩
  | (.error e, s) => ⟨.failed e, { s with log := shownLog a s.log }⟩

def run (m : Machine τ) (t : Node) (words : List String) : Outcome :=
  match parse words with
  | .error h =>
    let stdout := if h = .version then toolName ++ " " ++ toolVersion ++ "\n" else ""
    ⟨.halted h, { tree := t, stdout }⟩
  | .ok (a, task) => finish a ((runTask m a task).run.run { tree := t })

end Commands

end ContractAudit.CommandLine
