import ContractAudit.CommandLine.Grammar
import ContractAudit.Config.Amount
import ContractAudit.Plugin.Store

/-! # What a command line can ask for -/

namespace ContractAudit.CommandLine

structure ScanArguments where
  path : String := ""
  config : Option String := none
  output : Option String := none
  formats : List String := []
  jsonOnly : Bool := false
  htmlOnly : Bool := false
  noOpen : Bool := false
  failOnCritical : Bool := false
  mode : Option String := none
  workers : Option Int := none
  pluginDir : Option String := none
deriving DecidableEq, Repr

structure FuzzArguments where
  path : String := ""
  timeout : Option Float := none
  jobs : Option Int := none
  output : Option String := none
  campaignTimeout : Option Float := none
  timeoutsAsFindings : Bool := false
  timeoutSeverity : String := "low"
  maxExecutions : Option Int := none
  executionTimeout : Option Float := none
  seedDir : Option String := none
  seed : Option Int := none
  formats : List String := []
  pluginDir : Option String := none

structure PluginArguments where
  action : String := ""
  path : Option String := none
  pluginDir : Option String := none
deriving DecidableEq, Repr

inductive Task where
  | scan (a : ScanArguments)
  | fuzz (a : FuzzArguments)
  | plugin (a : PluginArguments)

structure Invocation where
  settings : Option String := none
  logDir : Option String := none
  verbose : Bool := false
  quiet : Bool := false
  task : Option Task := none

section Options

variable {α : Type} (names : List String)

def flag (names : List String) (set : α → α) : Opt α := ⟨names, .flag set⟩

def text (set : String → α → α) : Opt α :=
  ⟨names, .value fun v a => some (set v a)⟩

def integer (set : Int → α → α) : Opt α :=
  ⟨names, .value fun v a => match integerOfText v with
    | .ok n => some (set n a)
    | .error _ => none⟩

def decimal (set : Float → α → α) : Opt α :=
  ⟨names, .value fun v a => (Decimal.readFloat? v).map (set · a)⟩

def choice (choices : List String) (set : String → α → α) : Opt α :=
  ⟨names, .value fun v a => if choices.contains v then some (set v a) else none⟩

def help : Opt α := ⟨["-h", "--help"], .halt .help⟩

end Options

def scanGrammar : Grammar ScanArguments where
  options := [help,
    text ["--config", "-c"] fun v a => { a with config := some v },
    text ["--output", "-o"] fun v a => { a with output := some v },
    text ["--format", "-f"] fun v a => { a with formats := a.formats ++ [v] },
    flag ["--json-only"] fun a => { a with jsonOnly := true },
    flag ["--html-only"] fun a => { a with htmlOnly := true },
    flag ["--no-open"] fun a => { a with noOpen := true },
    flag ["--fail-on-critical"] fun a => { a with failOnCritical := true },
    choice ["--mode"] ExecutionMode.names fun v a => { a with mode := some v },
    integer ["--workers"] fun v a => { a with workers := some v },
    text ["--plugin-dir"] fun v a => { a with pluginDir := some v }]
  positionals := [.one "path" fun v a => some { a with path := v }]

def fuzzGrammar : Grammar FuzzArguments where
  options := [help,
    decimal ["--timeout", "-t"] fun v a => { a with timeout := some v },
    integer ["--jobs", "-j"] fun v a => { a with jobs := some v },
    text ["--output", "-o"] fun v a => { a with output := some v },
    decimal ["--campaign-timeout"] fun v a => { a with campaignTimeout := some v },
    flag ["--timeouts-as-findings"] fun a => { a with timeoutsAsFindings := true },
    choice ["--timeout-severity"] ["low", "medium"] fun v a => { a with timeoutSeverity := v },
    integer ["--max-executions"] fun v a => { a with maxExecutions := some v },
    decimal ["--execution-timeout"] fun v a => { a with executionTimeout := some v },
    text ["--seed-dir"] fun v a => { a with seedDir := some v },
    integer ["--seed"] fun v a => { a with seed := some v },
    text ["--format", "-f"] fun v a => { a with formats := a.formats ++ [v] },
    text ["--plugin-dir"] fun v a => { a with pluginDir := some v }]
  positionals := [.one "path" fun v a => some { a with path := v }]

def pluginGrammar : Grammar PluginArguments where
  options := [help, text ["--plugin-dir"] fun v a => { a with pluginDir := some v }]
  positionals := [
    .one "action" fun v a => if PluginStore.actions.contains v then some { a with action := v } else none,
    .atMostOne fun v a => { a with path := v }]

def readTask : List String → Except Halt (Task × List String)
  | "scan" :: words => do
    let (a, left) ← scanGrammar.read {} words
    return (.scan a, left)
  | "fuzz" :: words => do
    let (a, left) ← fuzzGrammar.read {} words
    return (.fuzz a, left)
  | "plugin" :: words => do
    let (a, left) ← pluginGrammar.read {} words
    return (.plugin a, left)
  | words => .error (.badValue "command" (words.headD ""))

def grammar : Grammar Invocation where
  options := [help,
    ⟨["--version"], .halt .version⟩,
    text ["--settings"] fun v a => { a with settings := some v },
    text ["--log-dir"] fun v a => { a with logDir := some v },
    flag ["--verbose", "-v"] fun a => { a with verbose := true },
    flag ["--quiet", "-q"] fun a => { a with quiet := true }]
  positionals := [.rest "command" fun words a => do
    let (task, left) ← readTask words
    return ({ a with task := some task }, left)]

def parse (words : List String) : Except Halt (Invocation × Task) := do
  match ← grammar.read {} words with
  | (a, []) => match a.task with
    | some task => return (a, task)
    | none => .error (.required ["command"])
  | (_, left) => .error (.unrecognized left)

end ContractAudit.CommandLine
