import ContractAudit.Order
import ContractAudit.Text.Pattern
import ContractAudit.Value.Basic

/-! # The model of a source text -/

namespace ContractAudit.Source
open Text

structure Line where
  number : Nat
  raw : String
  code : String
deriving DecidableEq, Repr

def typeNamePattern : Pattern :=
  .mark 1 .ident ++ .blanks ++ .opt (.char '<' ++ .many .anyChar) ++ .textEnd

structure Field where
  name : String
  type : String
  line : Nat
  attributes : List String := []
  docs : List String := []
deriving DecidableEq, Repr

def Field.typeName (f : Field) : String :=
  let type := trim f.type.toList
  match typeNamePattern.matchStart type with
  | some m => m.groupText 1
  | none => String.ofList type

def Field.hasAttribute (f : Field) (keyword : String) : Bool :=
  f.attributes.any fun a => (Pattern.word keyword).occursIn a.toList

structure Struct where
  name : String
  startLine : Nat
  endLine : Nat
  attributes : List String := []
  fields : List Field := []
deriving DecidableEq, Repr

def deriveAccounts : Pattern :=
  .lit "derive" ++ .blanks ++ .char '(' ++ .many (.noneOf ")") ++ .word "Accounts"

def Struct.isAccounts (s : Struct) : Bool :=
  s.attributes.any fun a => deriveAccounts.occursIn a.toList

def Struct.field? (s : Struct) (name : String) : Option Field := s.fields.find? (·.name == name)

/-- A function with a body. Its `offset` is where its declaration begins in the source, so no two
    functions of a source share it. -/
structure Function where
  name : String
  offset : Nat
  startLine : Nat
  bodyStartLine : Nat
  endLine : Nat
  params : String := ""
  returnType : String := ""
  attributes : List String := []
  isPub : Bool := false
  isUnsafe : Bool := false
  container : Option String := none
  body : String := ""
deriving DecidableEq, Repr

variable (f : Function)

/-- The name with the block or module that the function belongs to. A nameless one does not count. -/
def Function.qualifiedName : String :=
  match f.container with
  | none => f.name
  | some c => if c.isEmpty then f.name else c ++ "::" ++ f.name

def contextPattern : Pattern :=
  .wordEdge ++ .lit "Context" ++ .blanks ++ .char '<' ++ .blanks
    ++ .many (.char '\'' ++ .name ++ .blanks ++ .char ',' ++ .blanks) ++ .mark 1 .name

def Function.contextStruct? : Option String :=
  (contextPattern.search f.params.toList).map (·.groupText 1)

def Function.containsLine (line : Nat) : Bool :=
  f.startLine ≤ line && line ≤ f.endLine

structure Module where
  name : String
  startLine : Nat
  endLine : Nat
  attributes : List String := []
deriving DecidableEq, Repr

def programAttribute : Pattern :=
  .char '#' ++ .blanks ++ .char '[' ++ .blanks ++ .lit "program" ++ .blanks ++ .char ']'

def Module.isProgram (m : Module) : Bool :=
  m.attributes.any fun a => programAttribute.matchesAll a.toList

def Module.isTest (m : Module) : Bool :=
  m.attributes.any fun a => (Pattern.lit "cfg(test)").occursIn (a.toList.filter (· != ' '))

def Module.containsLine (m : Module) (line : Nat) : Bool :=
  m.startLine ≤ line && line ≤ m.endLine

structure Model where
  lines : List Line := []
  functions : List Function := []
  structs : List Struct := []
  modules : List Module := []
  uses : List String := []
deriving DecidableEq, Repr

namespace Model
variable (m : Model)

def line? (number : Nat) : Option Line :=
  if number = 0 then none else m.lines[number - 1]?

variable (f : Function)

def bodyLines : List Line :=
  (m.lines.take f.endLine).drop (f.bodyStartLine - 1)

/-- The innermost function around a line: of those with the fewest lines, the first. -/
def functionAt? (line : Nat) : Option Function :=
  firstMin (fun f : Function => f.endLine - f.startLine) (m.functions.filter (·.containsLine line))

def struct? (name : String) : Option Struct := m.structs.find? (·.name == name)

def accountsStructs : List Struct := m.structs.filter (·.isAccounts)

def testAttribute : Pattern :=
  .char '#' ++ .blanks ++ .char '[' ++ .blanks ++ .many (.some1 .wordChar ++ .lit "::")
    ++ .lit "test" ++ .wordEdge

def isTestCode : Bool :=
  f.attributes.any (fun a => testAttribute.occursIn a.toList)
    || m.modules.any fun d => d.containsLine f.startLine && d.isTest

/-- The function can be called as an instruction: a public function of a program module, or one whose
    name or parameters show that it takes accounts itself. -/
def isHandler : Bool :=
  !m.isTestCode f
    && ((m.modules.any (fun d => d.isProgram && d.containsLine f.startLine) && f.isPub)
      || "process".toList.isPrefixOf f.name.toList
      || (Pattern.lit "AccountInfo").occursIn f.params.toList)

def handlers : List Function := m.functions.filter m.isHandler

end Model

def Field.toValue (f : Field) : Value :=
  .record [("name", .str f.name), ("type", .str f.type), ("type_name", .str f.typeName),
    ("line", .int f.line), ("attributes", .strings f.attributes), ("docs", .strings f.docs)]

def Struct.toValue (s : Struct) : Value :=
  .record [("name", .str s.name), ("start_line", .int s.startLine), ("end_line", .int s.endLine),
    ("attributes", .strings s.attributes), ("is_accounts", .bool s.isAccounts),
    ("fields", .list (s.fields.map Field.toValue))]

def Function.toValue (m : Model) (f : Function) : Value :=
  .record [("name", .str f.name), ("start_line", .int f.startLine),
    ("body_start_line", .int f.bodyStartLine), ("end_line", .int f.endLine), ("params", .str f.params),
    ("return_type", .str f.returnType), ("attributes", .strings f.attributes),
    ("is_pub", .bool f.isPub), ("is_unsafe", .bool f.isUnsafe), ("container", .ofString? f.container),
    ("qualified_name", .str f.qualifiedName), ("context_struct", .ofString? f.contextStruct?),
    ("body", .str f.body), ("is_test", .bool (m.isTestCode f)),
    ("is_handler", .bool (m.handlers.any fun g => g.offset == f.offset))]

def Module.toValue (m : Module) : Value :=
  .record [("name", .str m.name), ("start_line", .int m.startLine), ("end_line", .int m.endLine),
    ("attributes", .strings m.attributes), ("is_program", .bool m.isProgram)]

end ContractAudit.Source
