import ContractAudit.Finding.Basic
import ContractAudit.Finding.Diagnostic
import ContractAudit.Order

/-! # Entries of the audit log -/

namespace ContractAudit

structure Moment where
  stamp : String
  clock : String
  fileStamp : String
deriving DecidableEq, Repr

namespace Moment

/-- The year, month and day of a number of days since the start of 1970. Years are counted from
    March, so that the day that is left out of most years is the last one. -/
def civil (days : Nat) : Nat × Nat × Nat :=
  let z := days + 719468
  let era := z / 146097
  let dayOfEra := z % 146097
  let yearOfEra := (dayOfEra - dayOfEra / 1460 + dayOfEra / 36524 - dayOfEra / 146096) / 365
  let dayOfYear := dayOfEra - (365 * yearOfEra + yearOfEra / 4 - yearOfEra / 100)
  let m := (5 * dayOfYear + 2) / 153
  let day := dayOfYear - (153 * m + 2) / 5 + 1
  let month := if m < 10 then m + 3 else m - 9
  (yearOfEra + era * 400 + (if month ≤ 2 then 1 else 0), month, day)

def padded (width n : Nat) : String :=
  let digits := (toString n).toList
  String.ofList (List.replicate (width - digits.length) '0' ++ digits)

def ofMicroseconds (n : Nat) : Moment :=
  let seconds := n / 1000000
  let (year, month, day) := civil (seconds / 86400)
  let two := padded 2
  let hour := two (seconds / 3600 % 24)
  let minute := two (seconds / 60 % 60)
  let second := two (seconds % 60)
  let time := hour ++ ":" ++ minute ++ ":" ++ second
  let places := if n % 1000000 = 0 then "" else "." ++ padded 6 (n % 1000000)
  let date (between : String) := padded 4 year ++ between ++ two month ++ between ++ two day
  { stamp := date "-" ++ "T" ++ time ++ places ++ "+00:00"
    clock := time
    fileStamp := date "" ++ "_" ++ hour ++ minute ++ second }

example : civil 0 = (1970, 1, 1) := by decide

example : civil 11016 = (2000, 2, 29) := by decide

end Moment

inductive AuditKind where
  | session
  | rule
  | finding
  | failure
  | job
  | plugin
deriving DecidableEq, Repr

def AuditKind.name : AuditKind → String
  | session => "session"
  | rule => "rule"
  | finding => "finding"
  | failure => "failure"
  | job => "job"
  | plugin => "plugin"

def AuditKind.all : List AuditKind := [session, rule, finding, failure, job, plugin]

inductive AuditEvent where
  | sessionStart (metadata : Value)
  | sessionEnd (summary : Value)
  | rule (ruleId unit : Value) (findings : Value)
  | finding (parts : Entries)
  /-- A failure that was recovered from, given by its parts. -/
  | failure (parts : Entries)
  | job (jobId event : Value) (data : Value)
  | plugin (name event : Value) (data : Value)

structure AuditCounters where
  rules : Nat := 0
  findings : Nat := 0
  failures : Nat := 0
  jobs : Nat := 0
  plugins : Nat := 0
deriving DecidableEq, Repr

namespace AuditCounters

/-- The counters after one more entry of a kind; sessions are not counted. -/
def count (c : AuditCounters) : AuditKind → AuditCounters
  | .session => c
  | .rule => { c with rules := c.rules + 1 }
  | .finding => { c with findings := c.findings + 1 }
  | .failure => { c with failures := c.failures + 1 }
  | .job => { c with jobs := c.jobs + 1 }
  | .plugin => { c with plugins := c.plugins + 1 }

def fields (c : AuditCounters) : List (String × Value) :=
  [("rules", .int c.rules), ("findings", .int c.findings), ("failures", .int c.failures),
    ("jobs", .int c.jobs), ("plugins", .int c.plugins)]

end AuditCounters

structure AuditEntry where
  kind : AuditKind
  moment : Moment
  sessionId : String
  fields : List (String × Value)

namespace AuditEntry

def get (e : AuditEntry) (name : String) : Value := (e.fields.lookup name).getD .null

def toValue (e : AuditEntry) : Value :=
  .record ([("type", .str e.kind.name), ("timestamp", .str e.moment.stamp),
    ("session_id", .str e.sessionId)] ++ e.fields)

/-- The line of an entry in the file of a log. It has none if it cannot be written. -/
def line? (e : AuditEntry) : Option String := Json.dumps? Json.line e.toValue

end AuditEntry

namespace AuditEvent

def kind : AuditEvent → AuditKind
  | sessionStart _ | sessionEnd _ => .session
  | rule _ _ _ => .rule
  | finding _ => .finding
  | failure _ => .failure
  | job _ _ _ => .job
  | plugin _ _ _ => .plugin

def orEmpty (v : Value) : Value := if v.truthy then v else .map []

def truncate (limit : Int) (text : String) : String :=
  if limit < (text.length : Int) then
    String.ofList (slice text.toList 0 limit) ++ "..."
  else text

def part (m : Entries) (name : String) (default : Value) : Value := (m.get name).getD default

def findingFields (limit : Int) (parts : Entries) (location : Entries) : List (String × Value) :=
  [("finding_id", part parts "id" (.str "")), ("rule_id", part parts "rule_id" (.str "")),
    ("severity", part parts "severity" (.str "")), ("path", part location "path" (.str "")),
    ("line", part location "start_line" .null), ("message", part parts "message" (.str "")),
    ("evidence", .str (truncate limit (Json.render Json.sortedLine (part parts "evidence" (.list [])))))]

/-- What an entry says about an event, given the counters so far and how much evidence is shown.
    A finding cannot be recorded if its location is no map or its evidence cannot be shown. -/
def fields? (counters : AuditCounters) (limit : Int) : AuditEvent → Option (List (String × Value))
  | sessionStart metadata =>
    some [("event", .str "session_start"), ("metadata", orEmpty metadata)]
  | sessionEnd summary =>
    some [("event", .str "session_end"), ("stats", .record counters.fields),
      ("summary", orEmpty summary)]
  | rule ruleId unit findings => some [("rule_id", ruleId), ("unit", unit), ("findings", findings)]
  | finding parts => match part parts "location" (.map []) with
    | .map location =>
      if Json.refuses Json.sortedLine true (part parts "evidence" (.list [])) then none
      else some (findingFields limit parts location)
    | _ => none
  | failure parts =>
    some [("kind", part parts "kind" (.str "unknown")), ("source", part parts "source" (.str "")),
      ("subject", part parts "subject" (.str "")), ("message", part parts "message" (.str ""))]
  | job jobId event data => some [("job_id", jobId), ("event", event), ("data", orEmpty data)]
  | plugin name event data => some [("plugin", name), ("event", event), ("data", orEmpty data)]

def partsOf : Value → Entries
  | .map m => m
  | _ => []

def ofFinding (f : Finding) : AuditEvent := finding (partsOf f.toValue)

def ofDiagnostic (d : Diagnostic) : AuditEvent := failure (partsOf d.toValue)

end AuditEvent

end ContractAudit
