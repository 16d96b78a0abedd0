import ContractAudit.Fuzz.Strategy
import ContractAudit.Rule.Basic

/-! # Plugins -/

namespace ContractAudit

structure ApiVersion where
  major : Int
  minor : Int
deriving DecidableEq, Repr

inductive ApiVersionError where
  | malformed (given : Value)
  | number (e : IntegerError)
  /-- The value holds an integer that has no text. -/
  | tooLong

def ApiVersionError.message : ApiVersionError → String
  | malformed given => "malformed api version " ++ given.shown
  | number e => e.message
  | tooLong => Decimal.tooLongMessage

namespace ApiVersion

def host : String := "1.0"

def isPart (s : List Char) : Bool := !s.isEmpty && s.all Text.isAnyDigit

def part (s : List Char) : Except ApiVersionError Int :=
  match integerOfText (String.ofList s) with
  | .ok n => .ok n
  | .error e => .error (.number e)

def parse (v : Value) : Except ApiVersionError ApiVersion :=
  if v.isTooLong then .error .tooLong
  else match Text.splitOnChar '.' (Text.trim v.plain.toList) with
    | [a] => if isPart a then do return ⟨← part a, 0⟩ else .error (.malformed v)
    | [a, b] =>
      if isPart a && isPart b then do return ⟨← part a, ← part b⟩ else .error (.malformed v)
    | _ => .error (.malformed v)

/-- A plugin that asks for a version can be used by a host; what is no version cannot. -/
def isCompatible (given host : Value) : Except ApiVersionError Bool :=
  match parse given with
  | .error _ => .ok false
  | .ok v => do
    let h ← parse host
    return v.major = h.major && v.minor ≤ h.minor

end ApiVersion

/-- What a plugin hands out in place of a rule or a strategy. -/
inductive Provided (α : Type) where
  | item (a : α)
  | other (kind : String)

abbrev Provision (α : Type) := Except Fault (List (Provided α))

structure Plugin where
  implementation : String
  name : Option Value := none
  version : Option Value := none
  apiVersion : Option Value := none
  description : Option Value := none
  capabilities : Option Value := none
  rules : Option (Provision Rule) := none
  strategies : Option (Provision Strategy) := none

structure PluginDescriptor where
  name : String
  version : String
  apiVersion : String
  capabilities : List String
  description : String := ""
  path : Option String := none
  ruleIds : List String := []
  strategyNames : List String := []
deriving DecidableEq, Repr

def PluginDescriptor.toValue (d : PluginDescriptor) : Value :=
  .record [("name", .str d.name), ("version", .str d.version), ("api_version", .str d.apiVersion),
    ("capabilities", .strings d.capabilities), ("description", .str d.description),
    ("path", .ofString? d.path), ("rule_ids", .strings d.ruleIds),
    ("strategy_names", .strings d.strategyNames)]

inductive PluginProblem where
  | nameTaken
  | noApiVersion
  | incompatible (given host : Value)
  | noCapability
  | unknownCapability (given : Value)
  | notProvider (capability provider : String)
  | callFailed (method : String) (f : Fault)
  | unexpected (method kind expected : String)
  | ruleIdTaken (id : String)
  | loadFailed (f : Fault)
  | factoryFailed (f : Fault)
  | noPlugin
  | other (reason : String)

def PluginProblem.message : PluginProblem → String
  | nameTaken => "a plugin with this name is already registered"
  | noApiVersion => "no api_version declared"
  | incompatible given host =>
    "incompatible api version " ++ given.plain ++ " (host implements " ++ host.plain ++ ")"
  | noCapability => "declares no capability"
  | unknownCapability given => "unknown capability " ++ given.shown
  | notProvider capability provider =>
    "declares '" ++ capability ++ "' but is not a " ++ provider
  | callFailed method f => method ++ "() raised " ++ f.kind ++ ": " ++ f.message
  | unexpected method kind expected => method ++ "() returned " ++ kind ++ ", expected " ++ expected
  | ruleIdTaken id => "rule id " ++ id ++ " is already in use"
  | loadFailed f => "import failed: " ++ f.kind ++ ": " ++ f.message
  | factoryFailed f => "create_plugin() raised " ++ f.kind ++ ": " ++ f.message
  | noPlugin => "defines neither create_plugin() nor PLUGIN"
  | other reason => reason

structure PluginLoadError where
  plugin : String
  problem : PluginProblem

namespace PluginLoadError

def reason (e : PluginLoadError) : String := e.problem.message

def message (e : PluginLoadError) : String :=
  "plugin '" ++ e.plugin ++ "' rejected: " ++ e.reason

def toDiagnostic (e : PluginLoadError) : Diagnostic :=
  ⟨Diagnostic.pluginLoadError, "plugins", e.plugin, e.reason⟩

end PluginLoadError

end ContractAudit
