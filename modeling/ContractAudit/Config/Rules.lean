import ContractAudit.Rule.Catalogue
import ContractAudit.Value.Order

/-! # The configuration of rules -/

namespace ContractAudit

def supportedFormats : List String := ["json", "html", "markdown", "csv"]

inductive ConfigProblem where
  | notSettings
  | unknownSettings (names : List String)
  | notBoolean
  | notMapping
  | notStrings
  | notRuleMap
  | notRuleConfig
  | notSettingsMap
  | notString
  | notNumber
  | notKind (kind : String)
  | notInteger (text : String)
  | notDecimal (text : String)
  | unknownKey
  | unknownSeverity (given : Value)
  | unknownMode (given : Value)
  | unsupportedFormat (given : Value)
  | unofferedFormat (name : String)
  | exclusiveFormats
  | belowOne
  | notPositive
  | negative
  | notLowOrMedium
  | configMissing (file : String)
  | settingsMissing (file : String)
  | badYaml (file : String)
  | unreadable (file reason : String)
  | pathMissing (path : String)
  | noHarness (path : String)
  | other (reason : String)

def ConfigProblem.message : ConfigProblem → String
  | notSettings => "expected a mapping or a boolean"
  | unknownSettings names => "unknown setting(s) " ++ ", ".intercalate names
  | notBoolean => "expected a boolean"
  | notMapping => "expected a mapping"
  | notStrings => "expected a list of strings"
  | notRuleMap => "expected a mapping of rule ids"
  | notRuleConfig => "rule configuration must be a mapping"
  | notSettingsMap => "settings file must contain a mapping"
  | notString => "expected a string"
  | notNumber => "expected a number"
  | notKind kind => "expected " ++ kind
  | notInteger text => "not an integer: " ++ Text.quoted text
  | notDecimal text => "not a number: " ++ Text.quoted text
  | unknownKey => "unknown key"
  | unknownSeverity v => "unknown severity " ++ v.shown
  | unknownMode v => "unknown mode " ++ v.shown
  | unsupportedFormat v => "unsupported format " ++ v.shown
  | unofferedFormat name => "unsupported format " ++ Text.quoted name ++ " (choose from "
      ++ ", ".intercalate supportedFormats ++ ")"
  | exclusiveFormats => "--json-only and --html-only are mutually exclusive"
  | belowOne => "must be at least 1"
  | notPositive => "must be positive"
  | negative => "must not be negative"
  | notLowOrMedium => "must be low or medium"
  | configMissing file => "config file not found: " ++ file
  | settingsMissing file => "settings file not found: " ++ file
  | badYaml file => "invalid YAML in " ++ file
  | unreadable file reason => "cannot read " ++ file ++ ": " ++ reason
  | pathMissing path => "path does not exist: " ++ path
  | noHarness path => "no fuzz harness executables found under " ++ path
  | other reason => reason

structure ConfigInvalid where
  problem : ConfigProblem
  key : Option String := none

def ConfigInvalid.message (e : ConfigInvalid) : String :=
  match e.key.filter (!·.isEmpty) with
  | some k => k ++ ": " ++ e.problem.message
  | none => e.problem.message

inductive ConfigError where
  | invalid (e : ConfigInvalid)
  | unordered (left right : Scalar)
  | notText (kind : String)
  | tooLarge
  /-- What a file names, or a text that a message needs, cannot be made. -/
  | faulty (f : Fault)

def unorderedMessage : Scalar → Scalar → String
  | .timestamp (.time _), .timestamp (.time _) =>
    "can't compare offset-naive and offset-aware datetimes"
  | .timestamp _, .timestamp _ => "can't compare datetime.datetime to datetime.date"
  | left, right => "'<' not supported between instances of '" ++ (Value.scalar left).kindName
      ++ "' and '" ++ (Value.scalar right).kindName ++ "'"

def ConfigError.message : ConfigError → String
  | invalid e => e.message
  | unordered left right => unorderedMessage left right
  | notText kind => "'" ++ kind ++ "' object has no attribute 'strip'"
  | tooLarge => "int too large to convert to float"
  | faulty f => f.message

def ConfigError.tooLong : ConfigError := .faulty ⟨"ValueError", Decimal.tooLongMessage⟩

def refuse {α : Type} (key : String) (p : ConfigProblem) : Except ConfigError α :=
  .error (.invalid ⟨p, some key⟩)

def refuseAll {α : Type} (p : ConfigProblem) : Except ConfigError α := .error (.invalid ⟨p, none⟩)

structure RuleSettings where
  enabled : Bool := true
  severity : Option Severity := none
  options : Entries := []
deriving DecidableEq

def severityAt (key : String) (v : Value) : Except ConfigError Severity :=
  if v.isTooLong then .error .tooLong
  else match Severity.parse v with
    | .ok s => .ok s
    | .error _ => refuse key (.unknownSeverity v)

def stringItems? : List Value → Option (List String)
  | [] => some []
  | .str s :: vs => (stringItems? vs).map (s :: ·)
  | _ :: _ => none

/-- The list of strings that stands at a key; null stands for no strings. -/
def stringsAt (key : String) (v : Value) : Except ConfigError (List String) :=
  match v with
  | .null => .ok []
  | .list vs => match stringItems? vs with
    | some ss => .ok ss
    | none => refuse key .notStrings
  | _ => refuse key .notStrings

namespace RuleSettings
variable (m : Entries)

def keys : List String := ["enabled", "severity", "options"]

/-- The first two keys in a row that cannot be put in order, the later one first. -/
def firstUnordered? : List Scalar → Option (Scalar × Scalar)
  | a :: b :: s => if (a.le? b).isNone then some (b, a) else firstUnordered? (b :: s)
  | _ => none

def unknownKeys : List Scalar :=
  (m.map (·.1)).filter fun k => !keys.any fun n => k == .str n

def checkKeys (key : String) (m : Entries) : Except ConfigError Unit :=
  let unknown := unknownKeys m
  if unknown.isEmpty then .ok ()
  else match firstUnordered? unknown with
    | some (left, right) => .error (.unordered left right)
    | none =>
      if unknown.any Scalar.isTooLong then .error .tooLong
      else
        let sorted := unknown.mergeSort fun a b => (a.le? b).getD true
        refuse key (.unknownSettings (sorted.map fun k => (Value.scalar k).plain))

def enabledAt (key : String) (m : Entries) : Except ConfigError Bool :=
  match m.get "enabled" with
  | none => .ok true
  | some (.bool b) => .ok b
  | some _ => refuse (key ++ ".enabled") .notBoolean

def severityOf (key : String) (m : Entries) : Except ConfigError (Option Severity) :=
  match m.get "severity" with
  | none | some .null => .ok none
  | some v => (severityAt (key ++ ".severity") v).map some

def optionsOf (key : String) (m : Entries) : Except ConfigError Entries :=
  match m.get "options" with
  | none => .ok []
  | some v =>
    if !v.truthy then .ok []
    else match v with
      | .map options => .ok options
      | _ => refuse (key ++ ".options") .notMapping

/-- The settings that stand under a rule id: a truth value enables the rule or not. -/
def ofValue (ruleId : String) (v : Value) : Except ConfigError RuleSettings :=
  let key := "rules." ++ ruleId
  match v with
  | .bool b => .ok { enabled := b }
  | .null => .ok {}
  | .map m => do
    checkKeys key m
    let enabled ← enabledAt key m
    let severity ← severityOf key m
    let options ← optionsOf key m
    return { enabled, severity, options }
  | _ => refuse key .notSettings

def toValue (s : RuleSettings) : Value :=
  .record ([("enabled", .bool s.enabled)]
    ++ (match s.severity with
      | some v => [("severity", .str v.name)]
      | none => [])
    ++ (if s.options.isEmpty then [] else [("options", .map s.options)]))

end RuleSettings

def defaultIgnoredPaths : List String := ["target/*", "node_modules/*", ".anchor/*"]

structure RuleConfig where
  rules : List (String × RuleSettings) := []
  ignoredPaths : List String := defaultIgnoredPaths
  disabledRules : List String := []
  minSeverity : Severity := .info
deriving DecidableEq

namespace RuleConfig
variable (m : Entries)
variable (c : RuleConfig)

def settingsFor (ruleId : String) : RuleSettings :=
  (c.rules.lookup (Text.upper ruleId)).getD {}

def isEnabled (ruleId : String) : Bool :=
  let id := Text.upper ruleId
  !(c.disabledRules.map Text.upper).contains id && (c.settingsFor id).enabled

def keys : List String := ["rules", "ignore_paths", "disabled_rules", "min_severity"]

def insertRule (id : String) (s : RuleSettings) :
    List (String × RuleSettings) → List (String × RuleSettings)
  | [] => [(id, s)]
  | (k, t) :: rest =>
    if id == k then (id, s) :: rest
    else if id < k then (id, s) :: (k, t) :: rest
    else (k, t) :: insertRule id s rest

/-- The settings of all rules, read in order; of two under one id the later counts. -/
def rulesOf (done : List (String × RuleSettings)) :
    List (Scalar × Value) → Except ConfigError (List (String × RuleSettings))
  | [] => .ok done
  | (k, v) :: rest =>
    if k.isTooLong then .error .tooLong
    else do
      let id := Text.upper (Value.scalar k).plain
      let s ← RuleSettings.ofValue id v
      rulesOf (insertRule id s done) rest

def unknownKeys : List Scalar :=
  (m.map (·.1)).filter fun k => !keys.any fun n => k == .str n

/-- The least of the texts of keys that are no part of a configuration. -/
def unknownKey? : Option String :=
  ((unknownKeys m).map fun k => (Value.scalar k).plain).mergeSort (· ≤ ·) |>.head?

def rulesAt : Except ConfigError (List (String × RuleSettings)) :=
  match m.get "rules" with
  | none => .ok []
  | some v =>
    if !v.truthy then .ok []
    else match v with
      | .map rules => rulesOf [] rules
      | _ => refuse "rules" .notRuleMap

def ignoredPathsAt : Except ConfigError (List String) :=
  match m.get "ignore_paths" with
  | none => .ok defaultIgnoredPaths
  | some v => stringsAt "ignore_paths" v

def minSeverityAt : Except ConfigError Severity :=
  match m.get "min_severity" with
  | none | some .null => .ok .info
  | some v => severityAt "min_severity" v

def ofEntries : Except ConfigError RuleConfig := do
  let rules ← rulesAt m
  let ignoredPaths ← ignoredPathsAt m
  let disabled ← stringsAt "disabled_rules" ((m.get "disabled_rules").getD .null)
  let minSeverity ← minSeverityAt m
  return { rules, ignoredPaths, disabledRules := disabled.map Text.upper, minSeverity }

def ofValue : Value → Except ConfigError RuleConfig
  | .null => .ok {}
  | .map m =>
    if (unknownKeys m).any Scalar.isTooLong then .error .tooLong
    else match unknownKey? m with
      | some k => refuse k .unknownKey
      | none => ofEntries m
  | _ => refuseAll .notRuleConfig

def toValue : Value :=
  .record [("rules", .record (c.rules.map fun (id, s) => (id, s.toValue))),
    ("ignore_paths", .strings c.ignoredPaths), ("disabled_rules", .strings c.disabledRules),
    ("min_severity", .str c.minSeverity.name)]

def builtinRules : List Rule :=
  (builtinDetectors.filter fun d => c.isEnabled d.info.id).map fun d =>
    let s := c.settingsFor d.info.id
    d.rule { severity := s.severity, options := s.options }

end RuleConfig

end ContractAudit
