import ContractAudit.Audit.Entry
import ContractAudit.Files.Tree

/-! # The audit log -/

namespace ContractAudit

structure AuditSetup where
  sessionId : String
  logDir : Option String := none
  console : Bool := false
  level : Int := 20
  /-- How many characters of evidence are kept. -/
  maxEvidence : Int := 500

def AuditSetup.levelNames : List (String × Int) :=
  [("CRITICAL", 50), ("FATAL", 50), ("ERROR", 40), ("WARN", 30), ("WARNING", 30), ("INFO", 20),
    ("DEBUG", 10), ("NOTSET", 0)]

/-- The level that a value stands for. Level 0 leaves it at the usual level. -/
def AuditSetup.levelOf (v : Value) : Except Fault Int :=
  let orUsual (n : Int) := if n = 0 then 30 else n
  match v with
  | .int n => .ok (orUsual n)
  | .bool b => .ok (orUsual (if b then 1 else 0))
  | .str s => match levelNames.lookup s with
    | some n => .ok (orUsual n)
    | none => .error ⟨"ValueError", "Unknown level: " ++ v.shown⟩
  | _ => .error ⟨"TypeError", "Level not an integer or a valid string: " ++ v.shown⟩

structure AuditLog where
  setup : AuditSetup
  opened : Moment
  entries : List AuditEntry := []
  counters : AuditCounters := {}

namespace AuditLog
variable (l : AuditLog)

def start (setup : AuditSetup) (opened : Moment) : AuditLog := { setup, opened }

def shortSession (id : String) : String := String.ofList (id.toList.take 8)

def file? : Option FilePath :=
  (l.setup.logDir.filter (!·.isEmpty)).map fun d => (FilePath.ofString d).child
    ("audit_" ++ l.opened.fileStamp ++ "_" ++ shortSession l.setup.sessionId ++ ".jsonl")

def record (now : Moment) (e : AuditEvent) : AuditLog :=
  match e.fields? l.counters l.setup.maxEvidence with
  | none => l
  | some fields =>
    { l with
      entries := l.entries ++ [⟨e.kind, now, l.setup.sessionId, fields⟩]
      counters := l.counters.count e.kind }

def recordAll (now : Moment) (es : List AuditEvent) : AuditLog :=
  es.foldl (fun l e => l.record now e) l

def ofKind (k : AuditKind) : List AuditEntry := l.entries.filter (·.kind == k)

def lines : List String := l.entries.filterMap AuditEntry.line?

def stats : Value :=
  .record (l.counters.fields ++ [("total_entries", .int l.entries.length),
    ("session_id", .str l.setup.sessionId), ("log_file", .ofString? (l.file?.map FilePath.toText))])

def level : AuditKind → Int
  | .rule => 10
  | .finding => 30
  | .failure => 40
  | .session | .job | .plugin => 20

def colour (level : Int) : String :=
  if level = 10 then "\x1b[36m"
  else if level = 20 then "\x1b[32m"
  else if level = 30 then "\x1b[33m"
  else if level = 40 then "\x1b[31m"
  else ""

/-- An entry in a few words; at the end of a session, with what was counted so far. -/
def summary (counters : AuditCounters) (e : AuditEntry) : String :=
  let text (name : String) : String := (e.get name).plain
  match e.kind with
  | .rule => "[" ++ text "rule_id" ++ "] " ++ text "unit" ++ " findings=" ++ text "findings"
  | .finding => "[" ++ text "rule_id" ++ "] FINDING severity=" ++ text "severity" ++ " " ++ text "path"
      ++ ":" ++ text "line" ++ " " ++ text "message"
  | .failure => "[" ++ text "source" ++ "] " ++ Text.upper (text "kind") ++ " " ++ text "subject"
      ++ ": " ++ text "message"
  | .job => "[" ++ text "job_id" ++ "] " ++ text "event"
  | .plugin => "[plugin:" ++ text "plugin" ++ "] " ++ text "event"
  | .session =>
    if text "event" == "session_start" then
      "=== Session Started: " ++ shortSession e.sessionId ++ " ==="
    else "=== Session Ended: findings=" ++ toString counters.findings ++ " failures="
      ++ toString counters.failures ++ " ==="

def consoleLine (counters : AuditCounters) (e : AuditEntry) : String :=
  colour (level e.kind) ++ "[" ++ e.moment.clock ++ "] " ++ summary counters e ++ "\x1b[0m\n"

def countedFrom (counters : AuditCounters) : List AuditEntry → List (AuditEntry × AuditCounters)
  | [] => []
  | e :: es =>
    let counters := counters.count e.kind
    (e, counters) :: countedFrom counters es

/-- The console shows an entry: it matters enough, and the kind of a failure is a text. -/
def isShown (least : Int) (e : AuditEntry) : Bool :=
  least ≤ level e.kind && match e.kind, e.get "kind" with
    | .failure, .str _ => true
    | .failure, _ => false
    | _, _ => true

def consoleText : String :=
  if l.setup.console then
    "".intercalate (((countedFrom {} l.entries).filter fun (e, _) => isShown l.setup.level e).map
      fun (e, counters) => consoleLine counters e)
  else ""

end AuditLog

end ContractAudit
