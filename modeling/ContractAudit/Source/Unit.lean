import ContractAudit.Files.Tree
import ContractAudit.Source.Parser
import ContractAudit.Text.Case

/-! # Units, and the index of a program -/

namespace ContractAudit

def languageOfSuffix? : String → Option String
  | ".rs" => some "rust"
  | _ => none

def isSourcePath (p : FilePath) : Bool := (languageOfSuffix? (Text.lower p.suffix)).isSome

def languageOf (path : String) : String :=
  (languageOfSuffix? (Text.lower (FilePath.ofString path).suffix)).getD "unknown"

structure ScanUnit where
  path : String
  source : String
  language : String
  /-- The items of the source, which are found once for all rules. -/
  model : Source.Model := Source.Model.ofText source
  model_eq : model = Source.Model.ofText source := by rfl
deriving DecidableEq, Repr

namespace ScanUnit

def of (path source : String) (language : Option String) : ScanUnit :=
  { path, source, language := (language.filter (!·.isEmpty)).getD (languageOf path) }

/-- The text of the lines from `first` to `last`, or of the first line if no last line is given. -/
def snippetOf (m : Source.Model) (first : Int) (last : Option Int) : String :=
  let last := (last.filter (· != 0)).getD first
  "\n".intercalate ((slice m.lines (first - 1) last).map (·.raw))

def shown (u : ScanUnit) : String :=
  "ScanUnit(path=" ++ Text.quoted u.path ++ ", language=" ++ Text.quoted u.language ++ ")"

end ScanUnit

open Source

structure Index where
  paths : List String
  functions : List (String × Function)
  structs : List (String × Struct)

namespace Index

def sortUnits (units : List ScanUnit) : List ScanUnit :=
  units.mergeSort fun a b => a.path ≤ b.path

/-- The index of units; only those in the language of the rules have items. -/
def ofUnits (units : List ScanUnit) : Index :=
  let units := sortUnits units
  let models := (units.filter (·.language == "rust")).map fun u => (u.path, u.model)
  { paths := units.map (·.path)
    functions := models.flatMap fun (p, m) => m.functions.map (p, ·)
    structs := models.flatMap fun (p, m) => m.structs.map (p, ·) }

def struct? (x : Index) (name : String) : Option (String × Struct) :=
  x.structs.find? (·.2.name == name)

def handlersFor (x : Index) (struct : String) : List (String × Function) :=
  x.functions.filter fun e => e.2.contextStruct? == some struct

end Index

end ContractAudit
