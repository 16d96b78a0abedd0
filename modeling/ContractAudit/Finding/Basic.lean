import ContractAudit.Finding.Location
import ContractAudit.Hash.Sha2
import ContractAudit.Text.Case
import ContractAudit.Value.Json

/-! # Findings -/

namespace ContractAudit

inductive Severity where
  | info
  | low
  | medium
  | high
  | critical
deriving DecidableEq, Repr

structure UnknownSeverity where
  given : Value

def UnknownSeverity.message (e : UnknownSeverity) : String := "Unknown severity: " ++ e.given.shown

namespace Severity

def rank : Severity → Nat
  | info => 0
  | low => 1
  | medium => 2
  | high => 3
  | critical => 4

def name : Severity → String
  | info => "info"
  | low => "low"
  | medium => "medium"
  | high => "high"
  | critical => "critical"

def descending : List Severity := [critical, high, medium, low, info]

def aliases : List (String × Severity) :=
  [("informational", info), ("information", info), ("note", info), ("moderate", medium),
    ("warning", medium), ("severe", high)]

def ofName? (name : String) : Option Severity :=
  match aliases.lookup name with
  | some s => some s
  | none => descending.find? (·.name == name)

def parse (v : Value) : Except UnknownSeverity Severity :=
  match ofName? (Text.lower (Text.strip v.plain)) with
  | some s => .ok s
  | none => .error ⟨v⟩

def worse (a b : Severity) : Severity := if a.rank < b.rank then b else a

instance : LE Severity := ⟨fun a b => a.rank ≤ b.rank⟩
instance : LT Severity := ⟨fun a b => a.rank < b.rank⟩
instance (a b : Severity) : Decidable (a ≤ b) := inferInstanceAs (Decidable (a.rank ≤ b.rank))
instance (a b : Severity) : Decidable (a < b) := inferInstanceAs (Decidable (a.rank < b.rank))

end Severity

/-- An item of evidence: JSON data, with the entries of its maps in the order of their keys. -/
structure Evidence where
  value : Value
  data : Json.decoded value = value
deriving DecidableEq

namespace Evidence

def of (v : Value) : Evidence := ⟨Json.decoded v, Json.decoded_decoded v⟩

/-- What items are compared and sorted by. -/
def text (e : Evidence) : String := Json.canonical e.value

end Evidence

structure Finding where
  id : String
  ruleId : String
  severity : Severity
  location : Location
  message : String
  description : Option String := some ""
  remediation : Option String := some ""
  evidence : List Evidence := []
  fingerprint : Option String := some ""
  /-- Where the issue was seen; the location itself if nothing else is known. -/
  occurrences : List Location := [location]
  source : Option String := some "static"
deriving DecidableEq

/-- The fingerprint of a piece of code or a message, whatever its white space; none for a blank one. -/
def contentFingerprint (snippet : String) : String :=
  let kept := snippet.toList.filter (!Text.isBlank ·)
  if kept.isEmpty then "" else Hash.shortDigest (String.ofList kept)

/-- A line number in the key of an id; line 0 counts as none. -/
def lineKey : Option Int → String
  | none => ""
  | some n => if n = 0 then "" else toString n

def findingKey (ruleId : String) (location : Location) (fingerprint : String) : String :=
  let l := location.normalized
  "|".intercalate [ruleId, l.path, lineKey l.startLine?, lineKey l.endLine?, l.symbol.getD "",
    fingerprint]

def findingId (ruleId : String) (location : Location) (fingerprint : String) : String :=
  Hash.shortDigest (findingKey ruleId location fingerprint)

/-- What a rule or a campaign says about an issue; the id and the fingerprint follow from it. -/
structure Draft where
  ruleId : String
  severity : Severity
  location : Location
  message : String
  description : Option String := some ""
  remediation : Option String := some ""
  evidence : List Value := []
  /-- The code or text that the fingerprint is taken of. -/
  snippet : String := ""
  source : Option String := some "static"

def Draft.finding (d : Draft) : Finding :=
  let fingerprint := contentFingerprint d.snippet
  { id := findingId d.ruleId d.location fingerprint
    ruleId := d.ruleId
    severity := d.severity
    location := d.location
    message := d.message
    description := d.description
    remediation := d.remediation
    evidence := d.evidence.map .of
    fingerprint := some fingerprint
    source := d.source }

def shownText (t : Option String) : String := t.getD "None"

namespace Finding

def toValue (f : Finding) : Value :=
  .record [("id", .str f.id), ("rule_id", .str f.ruleId), ("severity", .str f.severity.name),
    ("location", f.location.toValue), ("message", .str f.message),
    ("description", .ofString? f.description), ("remediation", .ofString? f.remediation),
    ("evidence", .list (f.evidence.map (·.value))), ("fingerprint", .ofString? f.fingerprint),
    ("occurrences", .list (f.occurrences.map Location.toValue)), ("source", .ofString? f.source)]

def canonical (f : Finding) : String := Json.canonical f.toValue

end Finding

end ContractAudit
