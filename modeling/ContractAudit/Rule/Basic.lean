import ContractAudit.Finding.Basic
import ContractAudit.Source.Unit
import ContractAudit.Value.Integer

/-! # Detection rules -/

namespace ContractAudit
open Source

structure RuleInfo where
  id : String
  title : String
  defaultSeverity : Severity
  description : String := ""
  remediation : String := ""
  languages : List String := ["rust"]

structure RuleSetup where
  severity : Option Severity := none
  options : Entries := []

/-- The texts of an option that is a list; one text stands for a list of it, and a map for its
    keys. -/
def optionList (options : Entries) (key : String) : Except ItemsError (List String) :=
  match options.get key with
  | none => .ok []
  | some (.str s) => .ok [s]
  | some v => v.items.map fun vs => vs.map Value.plain

structure Sighting where
  line : Nat
  message : String
  symbol : Option String := none
  /-- How bad this sighting is, if not as bad as the rule says. -/
  severity : Option Severity := none
  evidence : List Value := []
  snippet : String

def Source.Line.trimmed (l : Line) : String := Text.strip l.raw

/-- What is seen on a line of a function. -/
def Sighting.onLine (m : Model) (f : Function) (l : Line) (message : String)
    (evidence : List (String × Value) := []) : Sighting where
  line := l.number
  message := message
  symbol := some f.qualifiedName
  evidence := [.record (evidence ++ [("snippet", .str l.trimmed)])]
  snippet := ScanUnit.snippetOf m l.number none

def Sighting.finding (s : Sighting) (info : RuleInfo) (setup : RuleSetup) (path : String) :
    Finding :=
  Draft.finding {
    ruleId := info.id
    severity := setup.severity.getD (s.severity.getD info.defaultSeverity)
    location := .ofLines path (some s.line) none s.symbol
    message := s.message
    description := info.description
    remediation := info.remediation
    evidence := s.evidence
    snippet := s.snippet }

/-- What an evaluation yields: findings, and how many values that are none. -/
structure Yield where
  findings : List Finding := []
  invalid : Nat := 0

structure Rule where
  info : RuleInfo
  setup : RuleSetup := {}
  implementation : String
  appliesTo : ScanUnit → Except Fault Bool := fun u => .ok (info.languages.contains u.language)
  evaluate : ScanUnit → Index → Except Fault Yield

namespace Rule

def id (r : Rule) : String := r.info.id

def severity (r : Rule) : Severity := r.setup.severity.getD r.info.defaultSeverity

def overridden (r : Rule) : Bool := r.setup.severity.isSome

def shown (r : Rule) : String := r.implementation ++ "(" ++ r.id ++ ")"

def optionList (r : Rule) (key : String) : Except ItemsError (List String) :=
  ContractAudit.optionList r.setup.options key

end Rule

structure Detector where
  info : RuleInfo
  implementation : String
  sightings : RuleSetup → ScanUnit → Index → Except ItemsError (List Sighting)

def Detector.rule (d : Detector) (setup : RuleSetup) : Rule where
  info := d.info
  setup := setup
  implementation := d.implementation
  evaluate unit index :=
    match d.sightings setup unit index with
    | .ok s => .ok { findings := s.map fun x => x.finding d.info setup unit.path }
    | .error e => .error e.fault

namespace Text.Pattern

def dot : Pattern := .blanks ++ .char '.' ++ .blanks

def opening : Pattern := .blanks ++ .char '('

def emptyCall : Pattern := opening ++ .blanks ++ .char ')'

end Text.Pattern

end ContractAudit
