import ContractAudit.Report.Basic

/-! # HTML reports -/

namespace ContractAudit.Html

inductive Piece where
  | markup (s : String)
  | text (s : String)
deriving DecidableEq, Repr

def escapeChar : Char → List Char
  | '&' => "&amp;".toList
  | '<' => "&lt;".toList
  | '>' => "&gt;".toList
  | '\'' => "&#39;".toList
  | '"' => "&#34;".toList
  | c => [c]

def escape (s : String) : String := String.ofList (s.toList.flatMap escapeChar)

def Piece.render : Piece → String
  | .markup s => s
  | .text s => escape s

abbrev Line := List Piece

def tag (indent : Nat) (s : String) : Line :=
  [.markup (String.ofList (List.replicate indent ' ') ++ s)]

def wrap (indent : Nat) (before text after : String) : Line :=
  tag indent before ++ [.text text, .markup after]

/-- The lines of several parts, with a line of spaces before the first and after each. -/
def block (indent : Nat) (parts : List (List Line)) : List Line :=
  tag indent "" :: parts.flatMap (· ++ [tag indent ""])

def blockIf (indent : Nat) (b : Bool) (lines : List Line) : List Line :=
  block indent (if b then [lines] else [])

/-- The colour of a severity and the one of the ground behind it. -/
def colours : Severity → String × String
  | .critical => ("#d32f2f", "#ffebee")
  | .high => ("#f57c00", "#fff3e0")
  | .medium => ("#fbc02d", "#fffde7")
  | .low => ("#388e3c", "#e8f5e9")
  | .info => ("#1976d2", "#e3f2fd")

def severityStyles (place : String) (style : Severity → List String) : List (String × List String) :=
  Severity.descending.map fun s => (place ++ "." ++ s.name, style s)

def styles : List (String × List String) :=
  [("*", ["box-sizing: border-box", "margin: 0", "padding: 0"]),
    ("body", ["font-family: -apple-system, BlinkMacSystemFont, 'Segoe UI', Roboto, sans-serif",
      "line-height: 1.6", "color: #333", "background: #f5f5f5"]),
    (".container", ["max-width: 1200px", "margin: 0 auto", "padding: 20px"]),
    ("header", ["background: #14142b", "color: white", "padding: 30px 0", "margin-bottom: 30px"]),
    ("header h1", ["text-align: center"]),
    (".summary", ["display: grid", "grid-template-columns: repeat(auto-fit, minmax(160px, 1fr))",
      "gap: 20px", "margin-bottom: 30px"]),
    (".card", ["background: white", "border-radius: 8px", "padding: 20px",
      "box-shadow: 0 2px 4px rgba(0,0,0,0.1)"]),
    (".card h3", ["margin-bottom: 10px", "color: #666", "font-size: 0.9em",
      "text-transform: uppercase"]),
    (".card .value", ["font-size: 2em", "font-weight: bold"])]
    ++ severityStyles "" (fun s => ["color: " ++ (colours s).1])
    ++ [(".finding", ["background: white", "border-radius: 8px", "margin-bottom: 20px",
      "overflow: hidden", "box-shadow: 0 2px 4px rgba(0,0,0,0.1)"]),
    (".finding-header", ["padding: 15px 20px", "display: flex", "justify-content: space-between",
      "align-items: center"])]
    ++ severityStyles ".finding-header" (fun s =>
      ["background: " ++ (colours s).2, "border-left: 4px solid " ++ (colours s).1])
    ++ [(".finding-body", ["padding: 20px", "border-top: 1px solid #eee"]),
    (".badge", ["padding: 4px 12px", "border-radius: 20px", "font-size: 0.8em", "font-weight: bold",
      "text-transform: uppercase", "color: white"])]
    ++ severityStyles ".badge" (fun s =>
      ("background: " ++ (colours s).1) :: if s = .medium then ["color: #333"] else [])
    ++ [(".detail-grid", ["display: grid", "grid-template-columns: repeat(2, 1fr)", "gap: 15px",
      "margin-bottom: 15px"]),
    (".detail-item label", ["display: block", "font-size: 0.8em", "color: #666",
      "margin-bottom: 4px"]),
    (".detail-item code", ["background: #f5f5f5", "padding: 4px 8px", "border-radius: 4px",
      "font-size: 0.9em"]),
    ("pre", ["background: #14142b", "color: #fff", "padding: 15px", "border-radius: 4px",
      "overflow-x: auto", "margin-top: 10px"]),
    (".remediation", ["background: #e3f2fd", "padding: 15px", "border-radius: 4px",
      "margin-top: 15px"]),
    (".remediation h4", ["color: #1565c0", "margin-bottom: 8px"]),
    ("table", ["width: 100%", "border-collapse: collapse", "background: white"]),
    ("th, td", ["text-align: left", "padding: 8px 12px", "border-bottom: 1px solid #eee",
      "font-size: 0.9em"]),
    ("h2", ["margin: 30px 0 20px"]),
    ("footer", ["text-align: center", "padding: 30px", "color: #666", "font-size: 0.9em"])]

def styleLine (rule : String × List String) : Line :=
  tag 8 (rule.1 ++ " \x7b " ++ "; ".intercalate rule.2 ++ "; \x7d")

def head (title : String) : List Line :=
  [tag 0 "<!DOCTYPE html>",
    tag 0 "<html lang=\"en\">",
    tag 0 "<head>",
    tag 4 "<meta charset=\"UTF-8\">",
    tag 4 "<meta name=\"viewport\" content=\"width=device-width, initial-scale=1.0\">",
    wrap 4 "<title>" title "</title>",
    tag 4 "<style>"]
    ++ styles.map styleLine
    ++ [tag 4 "</style>", tag 0 "</head>"]

def banner (title target : String) : List Line :=
  [tag 4 "<header>",
    tag 8 "<div class=\"container\">",
    wrap 12 "<h1>" title "</h1>",
    wrap 12 "<p style=\"text-align:center; opacity:0.8; margin-top:10px;\">Target: " target "</p>",
    tag 8 "</div>",
    tag 4 "</header>",
    tag 0 ""]

variable (r : Report)

def severityCard (s : Severity) : List Line :=
  [tag 12 "<div class=\"card\">",
    wrap 16 "<h3>" (Text.capitalize s.name) "</h3>",
    tag 16 "<div class=\"value " ++ [.text s.name, .markup "\">", .text (toString (r.count s)),
      .markup "</div>"],
    tag 12 "</div>"]

def summary : List Line :=
  [tag 8 "<div class=\"summary\">",
    tag 12 "<div class=\"card\">",
    tag 16 "<h3>Total Findings</h3>",
    wrap 16 "<div class=\"value\">" (toString r.findings.length) "</div>",
    tag 12 "</div>"]
    ++ block 12 (Severity.descending.map (severityCard r))
    ++ [tag 8 "</div>", tag 0 ""]

def occurrenceList (f : Finding) : List Line :=
  [tag 16 "<div class=\"detail-item\" style=\"margin-top:15px;\">",
    tag 20 "<label>Occurrences</label>",
    tag 20 "<ul style=\"margin-left:20px; margin-top:5px;\">"]
    ++ block 20 (f.occurrences.map fun l => [wrap 24 "<li><code>" l.text "</code></li>"])
    ++ [tag 20 "</ul>", tag 16 "</div>"]

def evidenceList (f : Finding) : List Line :=
  [tag 16 "<div class=\"detail-item\" style=\"margin-top:15px;\">",
    tag 20 "<label>Evidence</label>"]
    ++ block 20 (f.evidence.map fun e => [wrap 20 "<pre>" e.text "</pre>"])
    ++ [tag 16 "</div>"]

def findingLines (f : Finding) : List Line :=
  [wrap 8 "<div class=\"finding\" id=\"finding-" f.id "\">",
    wrap 12 "<div class=\"finding-header " f.severity.name "\">",
    wrap 16 "<div><strong>" f.ruleId "</strong> - " ++ [.text f.message, .markup "</div>"],
    wrap 16 "<span class=\"badge " f.severity.name "\">"
      ++ [.text (Text.upper f.severity.name), .markup "</span>"],
    tag 12 "</div>",
    tag 12 "<div class=\"finding-body\">",
    tag 16 "<div class=\"detail-grid\">",
    tag 20 "<div class=\"detail-item\">",
    tag 24 "<label>Location</label>",
    wrap 24 "<code>" f.location.text "</code>",
    tag 20 "</div>",
    tag 20 "<div class=\"detail-item\">",
    tag 24 "<label>Source</label>",
    wrap 24 "<code>" (shownText f.source) "</code>",
    tag 20 "</div>",
    tag 16 "</div>",
    tag 0 ""]
    ++ blockIf 16 (f.description.any (!·.isEmpty)) [wrap 16 "<p>" (f.description.getD "") "</p>"]
    ++ [tag 0 ""]
    ++ blockIf 16 (1 < f.occurrences.length) (occurrenceList f)
    ++ [tag 0 ""]
    ++ blockIf 16 (!f.evidence.isEmpty) (evidenceList f)
    ++ [tag 0 ""]
    ++ blockIf 16 (f.remediation.any (!·.isEmpty))
      [tag 16 "<div class=\"remediation\">",
        tag 20 "<h4>Remediation</h4>",
        wrap 20 "<p>" (f.remediation.getD "") "</p>",
        tag 16 "</div>"]
    ++ [tag 12 "</div>", tag 8 "</div>"]

def noFindings : List Line :=
  [tag 8 "<div class=\"card\" style=\"text-align:center; padding:40px;\">",
    tag 12 "<p style=\"color:#388e3c; font-size:1.2em;\">No findings</p>",
    tag 8 "</div>"]

def findings : List Line :=
  tag 8 "<h2>Findings</h2>"
    :: block 8 (if r.findings.isEmpty then [noFindings] else r.findings.map findingLines)
    ++ [tag 0 ""]

def diagnosticRow (d : Diagnostic) : List Line :=
  [tag 12 "<tr>",
    wrap 16 "<td>" d.kind "</td>",
    wrap 16 "<td>" d.source "</td>",
    wrap 16 "<td><code>" d.subject "</code></td>",
    wrap 16 "<td>" d.message "</td>",
    tag 12 "</tr>"]

def diagnostics : List Line :=
  tag 8 "<h2>Diagnostics</h2>"
    :: block 8 [if r.diagnostics.isEmpty then
        [tag 8 "<div class=\"card\"><p>No diagnostics recorded.</p></div>"]
      else
        [tag 8 "<table>",
          tag 12 "<tr><th>Kind</th><th>Source</th><th>Subject</th><th>Message</th></tr>"]
          ++ block 12 (r.diagnostics.map diagnosticRow)
          ++ [tag 8 "</table>"]]
    ++ [tag 0 ""]

def runDetails : List Line :=
  blockIf 8 (!r.metadata.isEmpty)
    ([tag 8 "<h2>Run Details</h2>", tag 8 "<table>"]
      ++ block 12 (r.sortedMetadata.map fun (k, v) =>
        [wrap 12 "<tr><th>" (Json.keyText k) "</th><td><code>"
          ++ [.text (formatValue v), .markup "</code></td></tr>"]])
      ++ [tag 8 "</table>"])

def footer : List Line :=
  [tag 4 "</div>",
    tag 0 "",
    tag 4 "<footer>",
    wrap 8 ("<p>Generated by " ++ toolName ++ " ") toolVersion "</p>",
    tag 4 "</footer>",
    tag 0 "</body>",
    tag 0 "</html>"]

def document : List Line :=
  let title := toolName ++ " " ++ metadataText r.metadata "kind" "scan" ++ " report"
  head title
    ++ tag 0 "<body>" :: banner title (metadataText r.metadata "target" "N/A")
    ++ tag 4 "<div class=\"container\">" :: summary r
    ++ findings r ++ diagnostics r ++ runDetails r ++ footer

def renderLine (l : Line) : String := String.join (l.map Piece.render)

def render : String := "\n".intercalate ((document r).map renderLine)

end ContractAudit.Html
