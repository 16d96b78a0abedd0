import ContractAudit.Report.Csv
import ContractAudit.Report.Html
import ContractAudit.Report.JsonDocument
import ContractAudit.Report.Markdown

/-! # Report formats -/

namespace ContractAudit

inductive ReportFormat where
  | json
  | html
  | markdown
  | csv
deriving DecidableEq, Repr

structure UnknownFormat where
  given : Value

def UnknownFormat.message (e : UnknownFormat) : String :=
  "Unsupported report format: " ++ e.given.shown

namespace ReportFormat

def name : ReportFormat → String
  | json => "json"
  | html => "html"
  | markdown => "markdown"
  | csv => "csv"

def extension : ReportFormat → String
  | json => "json"
  | html => "html"
  | markdown => "md"
  | csv => "csv"

def isDocument : ReportFormat → Bool
  | html | markdown => true
  | json | csv => false

def all : List ReportFormat := [csv, html, json, markdown]

def ofName? (name : String) : Option ReportFormat :=
  if name == "md" then some markdown else all.find? (·.name == name)

def parse (v : Value) : Except UnknownFormat ReportFormat :=
  match ofName? (Text.lower (Text.strip v.plain)) with
  | some f => .ok f
  | none => .error ⟨v⟩

def render (f : ReportFormat) (r : Report) : String :=
  match f with
  | json => JsonDocument.render {} r
  | html => Html.render r
  | markdown => Markdown.render {} r
  | csv => Csv.render r

end ReportFormat

def Report.renderAll (r : Report) (formats : List ReportFormat) : List (ReportFormat × String) :=
  (ReportFormat.all.filter formats.contains).map fun f => (f, f.render r)

end ContractAudit
