import ContractAudit.Description.Rule
import ContractAudit.Description.Target
import ContractAudit.Plugin.Store

/-! # Plugins as data -/

namespace ContractAudit.Description
variable (v : Value)

def providedOf {α : Type} (read : Value → Reading α) (v : Value) : Reading (Provided α) :=
  match field? v "bogus" with
  | some x => .ok (.other x.kindName)
  | none => do return .item (← read v)

def provisionOf {α : Type} (read : Value → Reading α) (v : Value) (k : String) :
    Reading (List (Provided α)) := do
  match ← faultOpt v (k ++ "_raise") with
  | some f => .error f
  | none => do (← listOr v k).mapM (providedOf read)

def providerOf {α : Type} (read : Value → Reading α) (v : Value) (k : String) :
    Option (Provision α) :=
  match field? v "provides" with
  | some (.list l) => if l.contains (.str k) then some (provisionOf read v k) else none
  | _ => none

/-- A plugin; null is a plugin that declares nothing. -/
def pluginOf : Plugin :=
  if v.isNull then { implementation := v.kindName }
  else {
    implementation := ((given? v "class").map Value.plain).getD "SpecPlugin"
    name := field? v "name"
    version := field? v "version"
    apiVersion := field? v "api_version"
    description := field? v "description"
    capabilities := field? v "capabilities"
    rules := providerOf ruleOf v "rules"
    strategies := providerOf strategyOf v "strategies" }

def faultAt (k : String) : Option Fault :=
  match faultOpt v k with
  | .ok f => f
  | .error f => some f

def pluginSourceOf : PluginSource :=
  match faultAt v "import_raise", faultAt v "factory_raise", field? v "factory" <|> given? v "object" with
  | some f, _, _ => .loadFails f
  | none, some f, _ => .factoryFails f
  | none, none, some p => .plugin (pluginOf p)
  | none, none, none => .nothing

def pluginLoader : PluginLoader := fun bytes => (markedValue? pluginMark bytes).elim .nothing pluginSourceOf

def reservedOf : Reading (List String) :=
  if (field? v "reserved").isSome then strings v "reserved" else .ok builtinRuleIds

def registryOf : Reading (Except RegisterError Registry) := do
  return (← listOr v "plugins").foldlM (fun r p => do return (← r.register (pluginOf p) none).1)
    (Registry.ofReserved builtinRuleIds)

def storeOf : Reading PluginStore := do
  match (FilePath.ofString (← strD v "plugin_dir" "plugins")).expandHome? ⟨"", []⟩ with
  | some dir => return { dir, reserved := ← reservedOf v, loader := pluginLoader }
  | none => .error ⟨"RuntimeError", unknownHome⟩

end ContractAudit.Description
