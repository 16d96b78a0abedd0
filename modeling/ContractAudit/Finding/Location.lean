import ContractAudit.Text.Word
import ContractAudit.Text.Parts
import ContractAudit.Value.Basic

/-! # Locations -/

namespace ContractAudit

/-- How many slashes a path begins with, as far as it matters: two are kept, three count as one. -/
def rootSlashes : List Char → Nat
  | '/' :: '/' :: '/' :: _ => 1
  | '/' :: '/' :: _ => 2
  | '/' :: _ => 1
  | _ => 0

/-- The components so far, the last first, with one more: `.` and the empty one change nothing, and
    `..` takes back the last component unless that is `..` too. -/
def pushComponent (rooted : Bool) (done : List (List Char)) (c : List Char) : List (List Char) :=
  if c.isEmpty || c == ['.'] then done
  else if c == ['.', '.'] then
    match done with
    | [] => if rooted then [] else [c]
    | d :: r => if d == ['.', '.'] then c :: done else r
  else c :: done

/-- The normal form of a path; the empty path stands for the current directory. -/
def normalizePathChars (path : List Char) : List Char :=
  let path := path.map fun c => if c == '\\' then '/' else c
  let slashes := rootSlashes path
  let parts := (Text.splitOnChar '/' path).foldl (pushComponent (slashes != 0)) []
  List.replicate slashes '/' ++ ['/'].intercalate parts.reverse

def normalizePath (path : String) : String := String.ofList (normalizePathChars path.toList)

structure LineRange where
  first : Int
  last : Int
deriving DecidableEq, Repr

structure Location where
  path : String
  lines : Option LineRange := none
  symbol : Option String := none
deriving DecidableEq, Repr

namespace Location
variable (l : Location)

/-- The location with a first and a last line, each standing in for the other if only one is given. -/
def ofLines (path : String) (first last : Option Int) (symbol : Option String) : Location :=
  match first, last with
  | none, none => ⟨path, none, symbol⟩
  | some a, none => ⟨path, some ⟨a, a⟩, symbol⟩
  | none, some b => ⟨path, some ⟨b, b⟩, symbol⟩
  | some a, some b => ⟨path, some ⟨a, b⟩, symbol⟩

def startLine? : Option Int := l.lines.map (·.first)

def endLine? : Option Int := l.lines.map (·.last)

def symbol? : Option String := l.symbol.filter (!·.isEmpty)

def normalSymbol (s : Option String) : Option String :=
  (s.map fun s => String.ofList (s.toList.filter (!Text.isBlank ·))).filter (!·.isEmpty)

def normalized : Location :=
  ⟨normalizePath l.path, l.lines, normalSymbol l.symbol⟩

def overlaps (a b : Location) : Bool :=
  match a.lines, b.lines with
  | some r, some s => r.first ≤ s.last && s.first ≤ r.last
  | _, _ => false

/-- What locations are sorted by: path, first line, last line and symbol. A missing line counts as
    `-1` and a missing symbol as the empty one. -/
structure Key where
  path : String
  first : Int
  last : Int
  symbol : String
deriving DecidableEq, Repr

def key : Key :=
  ⟨normalizePath l.path, l.startLine?.getD (-1), l.endLine?.getD (-1), l.symbol.getD ""⟩

def Key.cmp : Key → Key → Ordering :=
  compareLex (compareOn Key.path) (compareLex (compareOn Key.first)
    (compareLex (compareOn Key.last) (compareOn Key.symbol)))

/-- Locations in the order of their keys, and those with one key in the order of their paths as
    written. -/
def cmp : Location → Location → Ordering :=
  compareLex (fun a b => a.key.cmp b.key) (compareOn path)

def toValue : Value :=
  .record [("path", .str l.path), ("start_line", .ofInt? l.startLine?),
    ("end_line", .ofInt? l.endLine?), ("symbol", .ofString? l.symbol)]

def text : String :=
  let path := if l.path.isEmpty then "<unknown>" else l.path
  let lines := match l.lines with
    | none => ""
    | some r => if r.last = r.first then ":" ++ toString r.first
      else ":" ++ toString r.first ++ "-" ++ toString r.last
  let symbol := match l.symbol? with
    | none => ""
    | some s => " (" ++ s ++ ")"
  path ++ lines ++ symbol

end Location

end ContractAudit
