import ContractAudit.Report.Basic

/-! # CSV reports -/

namespace ContractAudit.Csv

def columns : List String :=
  ["record", "id", "rule_id", "severity", "path", "start_line", "end_line", "symbol", "message",
    "source", "occurrences"]

def needsQuotes (c : Char) : Bool := c == ',' || c == '"' || c == '\n'

def encodeField (s : List Char) : List Char :=
  if s.any needsQuotes then
    '"' :: s.flatMap (fun c => if c == '"' then ['"', '"'] else [c]) ++ ['"']
  else s

def encodeRecord (fields : List (List Char)) : List Char :=
  [','].intercalate (fields.map encodeField) ++ ['\n']

def lineField : Option Int → String
  | none => ""
  | some n => toString n

def findingRecord (f : Finding) : List String :=
  ["finding", f.id, f.ruleId, f.severity.name, f.location.path, lineField f.location.startLine?,
    lineField f.location.endLine?, f.location.symbol.getD "", f.message, f.source.getD "",
    toString f.occurrences.length]

def diagnosticRecord (d : Diagnostic) : List String :=
  ["diagnostic", "", d.kind, "", d.subject, "", "", "", d.message, d.source, ""]

def records (r : Report) : List (List String) :=
  columns :: r.findings.map findingRecord ++ r.diagnostics.map diagnosticRecord

def render (r : Report) : String :=
  String.ofList ((records r).flatMap fun fields => encodeRecord (fields.map String.toList))

end ContractAudit.Csv
