import ContractAudit.Audit.Entry
import ContractAudit.Plugin.Basic

/-! # The plugin registry -/

namespace ContractAudit

inductive RegisterError where
  | frozen
  | hostVersion (e : ApiVersionError)
  | notIterable (kind : String)
  /-- What the plugin declares holds an integer that has no text. -/
  | tooLong

def RegisterError.message : RegisterError → String
  | frozen => "plugin registry is frozen"
  | hostVersion e => e.message
  | notIterable kind => "'" ++ kind ++ "' object is not iterable"
  | tooLong => Decimal.tooLongMessage

inductive Refusal where
  | rejected (p : PluginProblem)
  | faulty (e : RegisterError)

structure Contribution where
  descriptor : PluginDescriptor
  rules : List Rule
  strategies : List Strategy

structure Registry where
  host : Value := .str ApiVersion.host
  /-- Rule ids that no plugin may use, in capitals. -/
  reserved : List String := []
  descriptors : List PluginDescriptor := []
  rules : List Rule := []
  strategies : List Strategy := []
  errors : List PluginLoadError := []
  frozen : Bool := false
  events : List AuditEvent := []

def rulesCapability : String := "rules"
def strategiesCapability : String := "strategies"
def knownCapabilities : List String := [rulesCapability, strategiesCapability]

namespace Plugin

/-- The name that a plugin goes by: its own, if that is a text and not empty. -/
def displayName (p : Plugin) : String :=
  match p.name with
  | some (.str s) => if s.isEmpty then p.implementation else s
  | _ => p.implementation

def declared (p : Plugin) : Except RegisterError (List Value) :=
  match p.capabilities.filter Value.truthy with
  | none => .ok []
  | some v => match v.items? with
    | some items => .ok items
    | none => .error (.notIterable v.kindName)

def capability? : Value → Option String
  | .str s => if knownCapabilities.contains s then some s else none
  | _ => none

def unknownCapability (c : Value) : Refusal :=
  if c.isTooLong then .faulty .tooLong else .rejected (.unknownCapability c)

def checkCapabilities (declared : List Value) : Except Refusal (List String) :=
  if declared.isEmpty then .error (.rejected .noCapability)
  else declared.mapM fun c => match capability? c with
    | some s => .ok s
    | none => .error (unknownCapability c)

/-- What a call hands out, if all of it is what was expected. -/
def collect {α : Type} (method expected : String) : Provision α → Except PluginProblem (List α)
  | .error f => .error (.callFailed method f)
  | .ok items => items.mapM fun i => match i with
    | .item a => .ok a
    | .other kind => .error (.unexpected method kind expected)

end Plugin

namespace Registry
variable (r : Registry) (p : Plugin)

def ofReserved (ids : List String) (host : Value := .str ApiVersion.host) : Registry where
  host
  reserved := ids.map Text.upper

def recordError (e : PluginLoadError) : Registry :=
  { r with errors := r.errors ++ [e], events := r.events ++ [.ofDiagnostic e.toDiagnostic] }

def takenIds : List String := r.reserved ++ r.rules.map fun x => Text.upper x.id

/-- The first rule whose id is in use, by the registry or by a rule before it. -/
def clash? (taken : List String) : List Rule → Option Rule
  | [] => none
  | x :: xs =>
    let id := Text.upper x.id
    if taken.contains id then some x else clash? (id :: taken) xs

def checkRules : Except PluginProblem (List Rule) :=
  match p.rules with
  | none => .error (.notProvider rulesCapability "RuleProvider")
  | some provision => do
    let rules ← Plugin.collect "list_rules" "Rule" provision
    match clash? r.takenIds rules with
    | some x => .error (.ruleIdTaken x.id)
    | none => return rules

def checkStrategies : Except PluginProblem (List Strategy) :=
  match p.strategies with
  | none => .error (.notProvider strategiesCapability "FuzzStrategyProvider")
  | some provision => Plugin.collect "list_strategies" "FuzzStrategy" provision

def ifCapable {α : Type} (capable : Bool) (asked : Except PluginProblem (List α)) :
    Except Refusal (List α) :=
  if capable then asked.mapError .rejected else .ok []

def checkContribution (path : Option String) (apiVersion : Value)
    (declared : List Value) : Except Refusal Contribution := do
  let capabilities ← Plugin.checkCapabilities declared
  let rules ← ifCapable (capabilities.contains rulesCapability) (r.checkRules p)
  let strategies ← ifCapable (capabilities.contains strategiesCapability) (checkStrategies p)
  if p.version.any Value.isTooLong || p.description.any Value.isTooLong then .error (.faulty .tooLong)
  else return {
    descriptor := {
      name := p.displayName
      version := ((p.version.map Value.plain).getD "0.0.0")
      apiVersion := apiVersion.plain
      capabilities
      description := ((p.description.filter Value.truthy).map Value.plain).getD ""
      path
      ruleIds := rules.map (·.id)
      strategyNames := strategies.map (·.name) }
    rules
    strategies }

def check (path : Option String) : Except Refusal Contribution :=
  if r.descriptors.any (·.name == p.displayName) then .error (.rejected .nameTaken)
  else match p.apiVersion.filter (!·.isNull) with
    | none => .error (.rejected .noApiVersion)
    | some v => match ApiVersion.isCompatible v r.host with
      | .error e => .error (.faulty (.hostVersion e))
      | .ok false =>
        if v.isTooLong || r.host.isTooLong then .error (.faulty .tooLong)
        else .error (.rejected (.incompatible v r.host))
      | .ok true => match p.declared with
        | .error e => .error (.faulty e)
        | .ok declared => r.checkContribution p path v declared

def add (c : Contribution) : Registry :=
  { r with
    descriptors := r.descriptors ++ [c.descriptor]
    rules := r.rules ++ c.rules
    strategies := r.strategies ++ c.strategies
    events := r.events ++ [.plugin (.str c.descriptor.name) (.str "registered") c.descriptor.toValue] }

def register (path : Option String) : Except RegisterError (Registry × Option PluginDescriptor) :=
  if r.frozen then .error .frozen
  else match r.check p path with
    | .ok c => .ok (r.add c, some c.descriptor)
    | .error (.rejected problem) => .ok (r.recordError ⟨p.displayName, problem⟩, none)
    | .error (.faulty e) => .error e

def freeze : Registry := { r with frozen := true }

def diagnostics : List Diagnostic := r.errors.map PluginLoadError.toDiagnostic

def toValue (r : Registry) : Value :=
  .record [("len", .int r.descriptors.length), ("frozen", .bool r.frozen),
    ("descriptors", .list (r.descriptors.map PluginDescriptor.toValue)),
    ("rules", .strings (r.rules.map (·.id))), ("strategies", .strings (r.strategies.map (·.name))),
    ("errors", .list (r.errors.map fun e => .strings [e.plugin, e.reason, e.message])),
    ("diagnostics", .list (r.diagnostics.map Diagnostic.toValue))]

end Registry

end ContractAudit
