import ContractAudit.Plugin.Registry

/-! # The plugin store -/

namespace ContractAudit

inductive PluginSource where
  | loadFails (f : Fault)
  | factoryFails (f : Fault)
  | plugin (p : Plugin)
  | nothing

abbrev PluginLoader := List UInt8 → PluginSource

structure PluginResult where
  success : Bool
  message : String
  descriptors : List PluginDescriptor := []
  errors : List PluginLoadError := []
  events : List AuditEvent := []

def PluginResult.toValue (r : PluginResult) : Value :=
  .record [("success", .bool r.success), ("message", .str r.message),
    ("descriptors", .list (r.descriptors.map PluginDescriptor.toValue)),
    ("errors", .list (r.errors.map fun e =>
      .record [("plugin", .str e.plugin), ("reason", .str e.reason)]))]

/-- The path with the home directory in place of `~`. The homes of others are not known. -/
def FilePath.expandHome? (p home : FilePath) : Option FilePath :=
  match p.parts with
  | [] => some p
  | first :: rest =>
    if !p.root.isEmpty || first.toList.head? != some '~' then some p
    else if first == "~" then some ⟨home.root, home.parts ++ rest⟩
    else none

def unknownHome : String := "Could not determine home directory."

inductive StoreError where
  | register (e : RegisterError)
  | file (e : FileError)
  | unknownHome

def StoreError.message : StoreError → String
  | register e => e.message
  | file e => e.message
  | unknownHome => ContractAudit.unknownHome

/-- An action on the store ended without a result: why, and what the audit log was told before. -/
structure StoreFailure where
  error : StoreError
  events : List AuditEvent := []

structure PluginStore where
  dir : FilePath
  reserved : List String := []
  loader : PluginLoader
  home : FilePath := ⟨"", []⟩

namespace PluginStore
variable (s : PluginStore) (t : Node)

abbrev Entry := FilePath × List UInt8

def isPluginName (name : String) : Bool :=
  ".py".toList.isSuffixOf name.toList && name.toList.head? != some '_'

def pluginFile? (dir : FilePath) (held : List (String × Node)) (name : String) : Option Entry :=
  match held.lookup name with
  | some (.file f) => if isPluginName name then some (dir.inside name, f.bytes) else none
  | _ => none

def files : List Entry :=
  match t.find s.dir with
  | .ok (.dir held) => (Node.dir held).names.filterMap (pluginFile? s.dir held)
  | _ => []

def load (e : Entry) : Except PluginLoadError Plugin :=
  match s.loader e.2 with
  | .plugin p => .ok p
  | .loadFails f => .error ⟨e.1.stem, .loadFailed f⟩
  | .factoryFails f => .error ⟨e.1.stem, .factoryFailed f⟩
  | .nothing => .error ⟨e.1.stem, .noPlugin⟩

def newRegistry : Registry := .ofReserved s.reserved

def loadOne (r : Registry) (e : Entry) : Except RegisterError Registry :=
  match s.load e with
  | .error x => .ok (r.recordError x)
  | .ok p => do return (← r.register p (some e.1.toText)).1

def loadAll (s : PluginStore) (r : Registry) : List Entry → Except StoreFailure Registry
  | [] => .ok r
  | e :: es => match s.loadOne r e with
    | .ok r => s.loadAll r es
    | .error x => .error ⟨.register x, r.events⟩

def loadInto (r : Registry) : Except StoreFailure Registry :=
  s.loadAll r (s.files t)

def registry : Except StoreFailure Registry := do
  return (← s.loadInto t s.newRegistry).freeze

abbrev Outcome := Except StoreFailure (PluginResult × Node)

def failing {ε α : Type} (reason : ε → StoreError) (events : List AuditEvent) :
    Except ε α → Except StoreFailure α
  | .ok a => .ok a
  | .error e => .error ⟨reason e, events⟩

def rejection (name : String) (e : PluginLoadError) : PluginResult :=
  { success := false, message := "Rejected " ++ name ++ ": " ++ e.reason, errors := [e] }

def place (name : String) (f : File) (d : PluginDescriptor) :
    Except FileError (PluginResult × Node) :=
  let destination := s.dir.inside name
  if t.exists? destination then
    .ok ({ success := false, message := "A plugin file named " ++ name ++ " is already installed" }, t)
  else do
    let t ← t.makeDirs s.dir
    let t ← t.copy name f destination
    return ({ success := true, message := "Installed " ++ d.name ++ " " ++ d.version,
              descriptors := [d] }, t)

def told (r : Registry) (x : PluginResult × Node) : PluginResult × Node :=
  ({ x.1 with events := r.events }, x.2)

/-- Puts a plugin file into the store if it goes together with those that are there. -/
def install (source : String) : Outcome :=
  match (FilePath.ofString source).expandHome? s.home with
  | none => .error ⟨.unknownHome, []⟩
  | some path => match t.find path with
    | .ok (.file f) =>
      if path.suffix != ".py" then
        .ok ({ success := false, message := "Not a plugin file: " ++ source }, t)
      else do
        let r ← s.loadInto t s.newRegistry
        match s.load (path, f.bytes) with
        | .error e => return told r (rejection path.name e, t)
        | .ok p =>
          match ← failing .register r.events (r.register p (some path.toText)) with
          | (r, some d) => return told r (← failing .file r.events (s.place t path.name f d))
          | (r, none) => match r.errors.getLast? with
            | some e => return told r (rejection path.name e, t)
            | none => return told r ({ success := false, message := "Rejected " ++ path.name }, t)
    | _ => .ok ({ success := false, message := "Not a plugin file: " ++ source }, t)

/-- The files after an installation, whatever came of it. A path cannot be used only where the
    directory of the store is still to be made, and then some of those above it may have been. -/
def afterInstall (source : String) : Node :=
  match s.install t source with
  | .ok (_, t') => t'
  | .error ⟨.file _, _⟩ => Node.left (t.tryDirs s.dir)
  | .error _ => t

def list : Outcome := do
  let r ← s.registry t
  let rejected := if r.errors.isEmpty then "" else ", " ++ toString r.errors.length ++ " rejected"
  return ({ success := true
            message := toString r.descriptors.length ++ " plugin(s) installed" ++ rejected
            descriptors := r.descriptors
            errors := r.errors
            events := r.events }, t)

structure Trial where
  entry : Entry
  descriptor : Option PluginDescriptor
  events : List AuditEvent

def probe (e : Entry) : Except RegisterError Trial :=
  match s.load e with
  | .error _ => .ok ⟨e, none, []⟩
  | .ok p => do
    let (r, d) ← s.newRegistry.register p (some e.1.toText)
    return ⟨e, d, r.events⟩

def findByName (s : PluginStore) (name : String) (told : List AuditEvent) :
    List Entry → Except StoreFailure (Option Trial × List AuditEvent)
  | [] => .ok (none, told)
  | e :: es => do
    let x ← failing .register told (s.probe e)
    if x.descriptor.any (·.name == name) then return (some x, told ++ x.events)
    else s.findByName name (told ++ x.events) es

/-- The installed file that a name stands for: by its file name or stem, else by the name of its
    plugin. -/
def find (name : String) : Except StoreFailure (Option Trial × List AuditEvent) :=
  let wanted := (FilePath.ofString name).name
  let stem := (FilePath.ofString wanted).stem
  match (s.files t).find? fun e => e.1.name == wanted || e.1.stem == stem with
  | some e => do
    let x ← failing .register [] (s.probe e)
    return (some x, x.events)
  | none => s.findByName name [] (s.files t)

def remove (s : PluginStore) (t : Node) (name : String) : Outcome := do
  match ← s.find t name with
  | (none, events) =>
    return ({ success := false, message := "No installed plugin named " ++ name, events }, t)
  | (some x, events) =>
    return ({ success := true
              message := "Removed " ++ (x.descriptor.map (·.name)).getD x.entry.1.stem
              descriptors := x.descriptor.toList
              events }, t.remove x.entry.1)

def actions : List String := ["install", "list", "remove"]

def run (action : String) (path : Option String) : Outcome :=
  let path := path.filter (!·.isEmpty)
  let refuse (message : String) : Outcome := .ok ({ success := false, message }, t)
  match action with
  | "install" => match path with
    | some p => s.install t p
    | none => refuse "install requires a plugin file path"
  | "list" => s.list t
  | "remove" => match path with
    | some p => s.remove t p
    | none => refuse "remove requires a plugin name"
  | _ => refuse ("Unknown plugin action: " ++ action ++ " (choose from "
      ++ ", ".intercalate actions ++ ")")

end PluginStore

end ContractAudit
