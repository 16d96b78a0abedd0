import ContractAudit.Config.Fuzz
import ContractAudit.Yaml.Writer

/-! # Settings of the tool -/

namespace ContractAudit

structure ToolSettings where
  mode : String := "sequential"
  maxWorkers : Int := 4
  jobCount : Int := 4
  perJobTimeout : Float := 300.0
  outputDir : String := defaultOutput
  pluginDir : String := "~/.solsec/plugins"
  logDir : Option String := none
  /-- The formats of reports; a file can give anything at all. -/
  formats : List Yaml.Data := defaultFormats.map fun f => .scalar (.str f)

abbrev Environment := List (String × String)

def Environment.get? (env : Environment) (name : String) : Option String :=
  (env.lookup name).filter (!·.isEmpty)

namespace ToolSettings
variable (s : ToolSettings)

def variableNames : List String := ["SOLSEC_JOBS", "SOLSEC_TIMEOUT", "SOLSEC_MODE", "SOLSEC_PLUGIN_DIR"]

def jobsFrom (text : String) : Except ConfigError ToolSettings :=
  match Decimal.readInt? text with
  | none => refuse "SOLSEC_JOBS" (.notInteger text)
  | some n => if n < 1 then refuse "SOLSEC_JOBS" .belowOne else .ok { s with jobCount := n }

def timeoutFrom (text : String) : Except ConfigError ToolSettings :=
  match Decimal.readFloat? text with
  | none => refuse "SOLSEC_TIMEOUT" (.notDecimal text)
  | some x => if x ≤ 0 then refuse "SOLSEC_TIMEOUT" .notPositive
    else .ok { s with perJobTimeout := x }

def modeFrom (text : String) : Except ConfigError ToolSettings :=
  let mode := Text.lower (Text.strip text)
  if ExecutionMode.names.contains mode then .ok { s with mode }
  else refuse "SOLSEC_MODE" (.unknownMode (.str mode))

def override (env : Environment) (name : String)
    (change : ToolSettings → String → Except ConfigError ToolSettings) (s : ToolSettings) :
    Except ConfigError ToolSettings :=
  match env.get? name with
  | some text => change s text
  | none => .ok s

def withEnvironment (env : Environment) : Except ConfigError ToolSettings := do
  let s ← override env "SOLSEC_JOBS" jobsFrom s
  let s ← override env "SOLSEC_TIMEOUT" timeoutFrom s
  let s ← override env "SOLSEC_MODE" modeFrom s
  override env "SOLSEC_PLUGIN_DIR" (fun s text => .ok { s with pluginDir := text }) s

def floatOfInt? (n : Int) : Option Float :=
  let x := Float.ofInt n
  if x.isInf then none else some x

def set (key : String) (d : Yaml.Data) : Except ConfigError ToolSettings :=
  match key, d with
  | "mode", .scalar (.str x) => .ok { s with mode := x }
  | "output_dir", .scalar (.str x) => .ok { s with outputDir := x }
  | "plugin_dir", .scalar (.str x) => .ok { s with pluginDir := x }
  | "mode", _ | "output_dir", _ | "plugin_dir", _ => refuse key (.notKind "str")
  | "max_workers", .scalar (.int n) => .ok { s with maxWorkers := n }
  | "job_count", .scalar (.int n) => .ok { s with jobCount := n }
  | "max_workers", _ | "job_count", _ => refuse key (.notKind "int")
  | "formats", .list _ ds => .ok { s with formats := ds }
  | "formats", _ => refuse key (.notKind "list")
  | "log_dir", .scalar .null => .ok { s with logDir := none }
  | "log_dir", .scalar (.str x) => .ok { s with logDir := some x }
  | "log_dir", _ => refuse key .notString
  | "per_job_timeout", .scalar (.float x) => .ok { s with perJobTimeout := x }
  | "per_job_timeout", .scalar (.int n) => match floatOfInt? n with
    | some x => .ok { s with perJobTimeout := x }
    | none => .error .tooLarge
  | "per_job_timeout", _ => refuse key .notNumber
  | _, _ => refuse key .unknownKey

def setAll (s : ToolSettings) : List (Yaml.Data × Yaml.Data) → Except ConfigError ToolSettings
  | [] => .ok s
  | (.scalar (.str key), d) :: rest => do setAll (← s.set key d) rest
  | (k, _) :: _ =>
    if k.toValue.isTooLong then .error .tooLong else refuse k.toValue.plain .unknownKey

/-- The settings that data stands for: the defaults with its entries over them. -/
def ofData : Yaml.Data → Except ConfigError ToolSettings
  | .map _ m => do
    let s ← setAll {} m
    if ExecutionMode.names.contains s.mode then return s
    else refuse "mode" (.unknownMode (.str s.mode))
  | _ => refuseAll .notSettingsMap

def toValue (s : ToolSettings) : Value :=
  .record [("mode", .str s.mode), ("max_workers", .int s.maxWorkers), ("job_count", .int s.jobCount),
    ("per_job_timeout", .float s.perJobTimeout), ("output_dir", .str s.outputDir),
    ("plugin_dir", .str s.pluginDir), ("log_dir", .ofString? s.logDir),
    ("formats", .list (s.formats.map Yaml.Data.toValue))]

/-- The settings as data, in which what occurs several times among the formats still does. -/
def toData : Yaml.Data :=
  .record [("mode", .scalar (.str s.mode)), ("max_workers", .scalar (.int s.maxWorkers)),
    ("job_count", .scalar (.int s.jobCount)), ("per_job_timeout", .scalar (.float s.perJobTimeout)),
    ("output_dir", .scalar (.str s.outputDir)), ("plugin_dir", .scalar (.str s.pluginDir)),
    ("log_dir", .scalar (match s.logDir with
      | some d => .str d
      | none => .null)),
    ("formats", .list none s.formats)]

/-- The settings in a file, under an environment. A file without a value has the defaults. -/
def load (t : Node) (env : Environment) (file : String) : Except ConfigError ToolSettings :=
  if t.exists? (FilePath.ofString file) then do
    let d ← readConfigFile t file "settings"
    let s ← ofData (if d.toValue.truthy then d else .map none [])
    s.withEnvironment env
  else refuseAll (.settingsMissing file)

def fileText : String := Yaml.render s.toData

end ToolSettings

/-- The settings in use, in an environment and over files: those that were loaded, or none yet. -/
structure SettingsHolder where
  env : Environment
  files : Node
  loaded : Option ToolSettings := none

inductive SettingsError where
  | config (e : ConfigError)
  | file (e : FileError)

namespace SettingsHolder

/-- Something that is done with the settings in use. What it changed before it failed stays so. -/
abbrev Use := ExceptT SettingsError (StateM SettingsHolder)

def perform {α : Type} (h : SettingsHolder) (u : Use α) : Except SettingsError α × SettingsHolder := u.run.run h

def lift {ε α : Type} (reason : ε → SettingsError) : Except ε α → Use α
  | .ok a => pure a
  | .error e => throw (reason e)

def take (s : ToolSettings) : Use ToolSettings := do
  modify fun h => { h with loaded := some s }
  return s

/-- The settings in use, which are the defaults under the environment until others are loaded. -/
def current : Use ToolSettings := do
  let h ← get
  match h.loaded with
  | some s => return s
  | none => take (← lift .config (ToolSettings.withEnvironment {} h.env))

def load (file : String) : Use ToolSettings := do
  let h ← get
  take (← lift .config (ToolSettings.load h.files h.env file))

def makeDirs (p : FilePath) : Use Unit := do
  let made := (← get).files.tryDirs p
  modify fun h => { h with files := Node.left made }
  lift (fun stop => .file stop.error) (made.map fun _ => ())

def write (p : FilePath) (text : String) : Use Unit := do
  let t ← lift .file ((← get).files.write p { bytes := Hash.utf8 text })
  modify fun h => { h with files := t }

/-- Saves the settings in use in a file. The file is emptied before the settings are looked at, so it
    stays empty if there are none or if they have no text. -/
def save (file : String) : Use Unit := do
  let path := FilePath.ofString file
  makeDirs path.parent
  write path ""
  let s ← current
  if s.toValue.isTooLong then throw (.config .tooLong)
  write path s.fileText

end SettingsHolder

end ContractAudit
