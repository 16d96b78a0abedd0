import ContractAudit.Rule.Basic

/-! # Rules given by a description -/

namespace ContractAudit

inductive SearchOutcome where
  | fails (fault : Fault)
  | nothing
  /-- The lines with a text, and then a number of values that are not findings. -/
  | lines (text : String) (junk : Nat)

structure SearchRule where
  id : String
  defaultSeverity : Severity := .low
  languages : List String := ["rust"]
  symbol : Option String := none
  appliesFault : Option Fault := none
  outcome : SearchOutcome := .lines "" 0

namespace SearchRule

def info (r : SearchRule) : RuleInfo :=
  { id := r.id, title := r.id, defaultSeverity := r.defaultSeverity, languages := r.languages }

def sighting (r : SearchRule) (text : String) (l : Source.Line) : Sighting :=
  { line := l.number
    message := text ++ " found"
    symbol := r.symbol
    snippet := l.raw }

def sightings (r : SearchRule) (text : String) (u : ScanUnit) : List Sighting :=
  if text.isEmpty then []
  else (u.model.lines.filter fun l => (Text.Pattern.lit text).occursIn l.raw.toList).map
    (r.sighting text)

def rule (r : SearchRule) (setup : RuleSetup) : Rule where
  info := r.info
  setup := setup
  implementation := "SpecRule"
  appliesTo u := match r.appliesFault with
    | some f => .error f
    | none => .ok (r.languages.contains u.language)
  evaluate u _ := match r.outcome with
    | .fails f => .error f
    | .nothing => .ok {}
    | .lines text junk =>
      .ok ⟨(r.sightings text u).map fun s => s.finding r.info setup u.path, junk⟩

end SearchRule

end ContractAudit
