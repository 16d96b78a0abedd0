import ContractAudit.Report.Basic

/-! # Markdown reports -/

namespace ContractAudit.Markdown
variable (r : Report)

structure Options where
  contents : Bool := true
  evidence : Bool := true

/-- A text in a cell of a table: its bars are escaped and its lines joined. -/
def cell (s : String) : String :=
  String.ofList (s.toList.flatMap fun c =>
    if c == '|' then ['\\', '|'] else if c == '\n' then [' '] else [c])

def marker : Severity → String
  | .critical => "🔴"
  | .high => "🟠"
  | .medium => "🟡"
  | .low => "🟢"
  | .info => "🔵"

def code (s : String) : String := "`" ++ s ++ "`"

def row (cells : List String) : String := "| " ++ " | ".intercalate cells ++ " |"

def header : List String :=
  ["# " ++ toolName ++ " " ++ metadataText r.metadata "kind" "scan" ++ " report", "",
    "**Target:** " ++ code (metadataText r.metadata "target" "N/A"), ""]

def numbered : List (Finding × Nat) :=
  r.findings.zipIdx.map fun (f, i) => (f, i + 1)

def contents : List String :=
  ["## Table of Contents", "", "- [Summary](#summary)", "- [Findings](#findings)"]
    ++ (numbered r).map (fun (f, i) =>
      "  - [" ++ f.ruleId ++ ": " ++ f.message ++ "](#finding-" ++ toString i ++ ")")
    ++ ["- [Diagnostics](#diagnostics)", ""]

def summary : List String :=
  ["## Summary", "", row ["Severity", "Count"], "|----------|-------|"]
    ++ Severity.descending.map (fun s => row [Text.capitalize s.name, toString (r.count s)])
    ++ [row ["**Total**", "**" ++ toString r.findings.length ++ "**"], ""]

def byRule (r : Report) : List String :=
  if r.byRule.isEmpty then []
  else [row ["Rule", "Findings"], "|------|----------|"]
    ++ r.byRule.map (fun (id, n) => row [id, toString n]) ++ [""]

def only (b : Bool) (lines : List String) : List String := if b then lines else []

def said (t : Option String) (lines : String → List String) : List String :=
  match t with
  | none => []
  | some s => only (!s.isEmpty) (lines s)

def finding (o : Options) (f : Finding) (i : Nat) : List String :=
  ["### " ++ marker f.severity ++ " Finding " ++ toString i ++ ": " ++ f.ruleId,
    "<a id=\"finding-" ++ toString i ++ "\"></a>", "", "**" ++ f.message ++ "**", "",
    row ["Property", "Value"], "|----------|-------|",
    row ["Severity", Text.upper f.severity.name], row ["Location", code f.location.text],
    row ["Source", shownText f.source], row ["Id", code f.id], ""]
    ++ said f.description (fun s => [s, ""])
    ++ only (1 < f.occurrences.length)
      ("**Occurrences:**" :: f.occurrences.map (fun l => "- " ++ code l.text) ++ [""])
    ++ only (o.evidence && !f.evidence.isEmpty)
      ("**Evidence:**" :: "```json" :: f.evidence.map Evidence.text ++ ["```", ""])
    ++ said f.remediation (fun s => ["**Remediation:**", "> " ++ s, ""])
    ++ ["---", ""]

def findings (o : Options) (r : Report) : List String :=
  ["## Findings", ""]
    ++ if r.findings.isEmpty then ["**No findings.**", ""]
      else (numbered r).flatMap fun (f, i) => finding o f i

def diagnostics (r : Report) : List String :=
  ["## Diagnostics", ""]
    ++ (if r.diagnostics.isEmpty then ["No diagnostics recorded."]
      else row ["Kind", "Source", "Subject", "Message"] :: "|------|--------|---------|---------|"
        :: r.diagnostics.map fun d => row [d.kind, cell d.source, code (cell d.subject), cell d.message])
    ++ [""]

def runDetails : List String :=
  if r.metadata.isEmpty then []
  else ["## Run Details", ""]
    ++ r.sortedMetadata.map (fun (k, v) =>
      "- **" ++ Json.keyText k ++ ":** " ++ code (formatValue v))
    ++ [""]

def footer : List String :=
  ["---", "*Report generated by " ++ toolName ++ " " ++ toolVersion ++ "*", ""]

/-- The lines of the document. A text of the report can bring newlines of its own into a line. -/
def lines (o : Options) (r : Report) : List String :=
  header r ++ only (o.contents && !r.findings.isEmpty) (contents r) ++ summary r ++ byRule r
    ++ findings o r ++ diagnostics r ++ runDetails r ++ footer

def render (o : Options) (r : Report) : String := "\n".intercalate (lines o r)

end ContractAudit.Markdown
