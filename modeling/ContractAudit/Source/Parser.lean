import ContractAudit.Source.Delimiter
import ContractAudit.Source.Lexeme
import ContractAudit.Source.Model

/-! # Finding the items of a source text -/

namespace ContractAudit.Source
open Text
variable (attributes : List AttributeSpan) (s : List Char) (d : Sheet) (masked : List Char)

def lineStartsFrom (n : Nat) : List Char → List Nat
  | [] => []
  | c :: s => if c == '\n' then (n + 1) :: lineStartsFrom (n + 1) s else lineStartsFrom (n + 1) s

def lineStarts : List Nat := 0 :: lineStartsFrom 0 s

def lineOf (starts : List Nat) (offset : Nat) : Nat := (starts.takeWhile (· ≤ offset)).length

def splitLines (s : List Char) : List (List Char) :=
  match s with
  | [] => [[]]
  | c :: r => if c == '\n' then [] :: splitLines r
    else match splitLines r with
      | [] => [[c]]
      | l :: ls => (c :: l) :: ls

/-- The lines without the empty one after a last newline. -/
def fileLines : List (List Char) :=
  if s.getLast? == some '\n' then (splitLines s).dropLast else splitLines s

def dropReturns (l : List Char) : List Char := (l.reverse.dropWhile (· == '\r')).reverse

def findChar (p : Char → Bool) (pos : Nat) : Option Nat :=
  ((s.drop pos).findIdx? p).map (· + pos)

def between (start stop : Nat) : List Char := (s.drop start).take (stop - start)

structure Sheet where
  text : List Char
  masked : List Char
  starts : List Nat

def Sheet.ofText : Sheet :=
  let masked := mask s
  ⟨s, masked, lineStarts masked⟩

def Sheet.lineOf (d : Sheet) (offset : Nat) : Nat := Source.lineOf d.starts offset

def Sheet.lines : List Line :=
  ((fileLines d.text).zip (fileLines d.masked)).zipIdx.map fun ((raw, code), i) =>
    ⟨i + 1, String.ofList (dropReturns raw), String.ofList (dropReturns code)⟩

/-- An attribute: its offsets, and whether it is about what it stands in. -/
structure AttributeSpan where
  start : Nat
  stop : Nat
  inner : Bool

def attributeHead : Pattern := .char '#' ++ .opt (.char '!') ++ .char '['

def attributeSpans : List AttributeSpan :=
  (attributeHead.findAll masked).map fun m =>
    let stop := blockEnd masked (m.finish - 1) + 1
    ⟨m.start, stop, m.finish - m.start == 3⟩

/-- The texts of the attributes that stand right before `pos`, each with single spaces, from the last
    attribute back: one that reaches beyond `pos` is passed over, and code between, or an inner
    attribute, ends the row. -/
def attributesBack (masked : List Char) (pos : Nat) : List AttributeSpan → List String
  | [] => []
  | a :: s =>
    if pos < a.stop then attributesBack masked pos s
    else if !(between masked a.stop pos).all isBlank then []
    else if a.inner then []
    else String.ofList (collapse (between masked a.start a.stop)) :: attributesBack masked a.start s

def attributesBefore (spans : List AttributeSpan) (pos : Nat) : List String :=
  (attributesBack masked pos spans.reverse).reverse

structure ImplBlock where
  start : Nat
  stop : Nat
  name : String

def beforeWhere : List Char :=
  match (Pattern.word "where").search s with
  | some m => s.take m.start
  | none => s

/-- The text after the last word `for`; the whole text if there is none. -/
def afterFor : List Char :=
  match ((Pattern.word "for").findAll s).getLast? with
  | some m => s.drop m.finish
  | none => s

def implName (header : List Char) : String :=
  let h := trim (beforeWhere header)
  let h := if h.head? == some '<' then h.drop (angleEnd h 0 + 1) else h
  let h := trim (afterFor h)
  match typeNamePattern.search h with
  | some m => m.groupText 1
  | none => String.ofList h

def implBlocks : List ImplBlock :=
  ((Pattern.word "impl").findAll masked).filterMap fun m =>
    match findChar masked (fun c => c == '{' || c == ';') m.finish with
    | some p =>
      if masked[p]? == some '{' then
        some ⟨p, blockEnd masked p, implName (between masked m.finish p)⟩
      else none
    | none => none

def visibility : Pattern :=
  .opt (.wordEdge ++ .lit "pub" ++ .opt (.blanks ++ .char '(' ++ .many (.noneOf ")") ++ .char ')')
    ++ .blanks1)

def moduleHead : Pattern :=
  visibility ++ .wordEdge ++ .lit "mod" ++ .blanks1 ++ .mark 1 .ident ++ .blanks ++ .char '{'

def Sheet.modules (attributes : List AttributeSpan) : List Module :=
  (moduleHead.findAll d.masked).map fun m =>
    { name := m.groupText 1
      startLine := d.lineOf m.start
      endLine := d.lineOf (blockEnd d.masked (m.finish - 1))
      attributes := attributesBefore d.masked attributes m.start }

def functionHead : Pattern :=
  visibility
    ++ .many (.oneOf [.lit "const", .lit "async", .lit "unsafe", .lit "default"] ++ .blanks1)
    ++ .opt (.lit "extern" ++ .blanks1
      ++ .opt (.char '"' ++ .many (.noneOf "\"") ++ .char '"' ++ .blanks1))
    ++ .wordEdge ++ .lit "fn" ++ .blanks1 ++ .mark 1 .ident

def pubStart : Pattern := .blanks ++ .lit "pub" ++ .wordEdge

def afterTypeParams (pos : Nat) : Nat :=
  let pos := pos + ((masked.drop pos).takeWhile isBlank).length
  if masked[pos]? == some '<' then angleEnd masked pos + 1 else pos

def dropArrow : List Char → List Char
  | [] => []
  | '-' :: '>' :: s => s
  | c :: s => c :: dropArrow s

def containerOf (impls : List ImplBlock) (modules : List Module) (offset line : Nat) :
    Option String :=
  match firstMax ImplBlock.start (impls.filter fun b => b.start < offset && offset < b.stop) with
  | some b => some b.name
  | none => (firstMax Module.startLine (modules.filter (·.containsLine line))).map (·.name)

def Sheet.function? (attributes : List AttributeSpan) (impls : List ImplBlock)
    (modules : List Module) (m : Match) : Option Function := do
  let paren ← findChar d.masked (· == '(') (afterTypeParams d.masked m.finish)
  let parenEnd := blockEnd d.masked paren
  let brace ← findChar d.masked (fun c => c == '{' || c == ';') (parenEnd + 1)
  if d.masked[brace]? != some '{' then none
  let stop := blockEnd d.masked brace
  let name ← m.capture? 1
  let lead := between d.masked m.start name.start
  let result := dropArrow (beforeWhere (between d.masked (parenEnd + 1) brace))
  let line := d.lineOf m.start
  some {
    name := String.ofList name.text
    offset := m.start
    startLine := line
    bodyStartLine := d.lineOf brace
    endLine := d.lineOf stop
    params := String.ofList (collapse (between d.masked (paren + 1) parenEnd))
    returnType := String.ofList (collapse result)
    attributes := attributesBefore d.masked attributes m.start
    isPub := (pubStart.matchStart lead).isSome
    isUnsafe := (Pattern.word "unsafe").occursIn lead
    container := containerOf impls modules m.start line
    body := String.ofList (between d.masked brace (stop + 1)) }

def Sheet.functions (attributes : List AttributeSpan) (modules : List Module) : List Function :=
  let impls := implBlocks d.masked
  (functionHead.findAll d.masked).filterMap (d.function? attributes impls modules)

def leadingAttributes (s : List Char) : List String × List Char :=
  match h : trimStart s with
  | '#' :: '[' :: r =>
    let stop := blockEnd ('[' :: r) 0
    let rest := leadingAttributes (r.drop stop)
    (String.ofList (collapse ('#' :: ('[' :: r).take (stop + 1))) :: rest.1, rest.2)
  | _ => ([], s)
termination_by s.length
decreasing_by
  have h1 : (trimStart s).length ≤ s.length := (List.dropWhile_suffix isBlank).length_le
  have h2 : (r.drop (blockEnd ('[' :: r) 0)).length ≤ r.length := by simp
  rw [h] at h1
  simp at h1 h2 ⊢
  omega

def fieldPattern : Pattern :=
  .opt (.lit "pub" ++ .opt (.blanks ++ .char '(' ++ .many (.noneOf ")") ++ .char ')') ++ .blanks1)
    ++ .mark 1 .ident ++ .blanks ++ .char ':' ++ .blanks ++ .mark 2 (.some1 .anyChar) ++ .textEnd

def docComment : Pattern :=
  .lineStart ++ .blanks ++ .lit "///" ++ .mark 1 (.many .inLine) ++ .lineEnd

def Sheet.field? (start : Nat) (chunk : List Char) : Option Field :=
  if chunk.all isBlank then none
  else
    let (attributes, tail) := leadingAttributes chunk
    let declaration := trimStart tail
    match fieldPattern.matchStart (trimEnd declaration) with
    | none => none
    | some m => match m.capture? 1 with
      | none => none
      | some name =>
        let raw := between d.text start (start + chunk.length)
        some {
          name := String.ofList name.text
          type := String.ofList (collapse (m.group 2))
          line := d.lineOf (start + (chunk.length - declaration.length) + name.start)
          attributes := attributes
          docs := (docComment.findAll raw).map fun c => String.ofList (trim (c.group 1)) }

def Sheet.fields (start stop : Nat) : List Field :=
  (splitTopLevel (· == ',') (between d.masked start stop)).filterMap fun (offset, chunk) =>
    d.field? (start + offset) chunk

def structHead : Pattern :=
  visibility ++ .wordEdge ++ .lit "struct" ++ .blanks1 ++ .mark 1 .ident

/-- The struct whose head is a given match. One without named fields ends at its semicolon. -/
def Sheet.struct (attributes : List AttributeSpan) (m : Match) : Struct :=
  let pos := afterTypeParams d.masked m.finish
  let head : Struct :=
    { name := m.groupText 1
      startLine := d.lineOf m.start
      endLine := d.lineOf ((findChar d.masked (· == ';') pos).getD pos)
      attributes := attributesBefore d.masked attributes m.start }
  match findChar d.masked (fun c => c == '{' || c == ';' || c == '(') pos with
  | some p =>
    if d.masked[p]? == some '{' then
      let stop := blockEnd d.masked p
      { head with endLine := d.lineOf stop, fields := d.fields (p + 1) stop }
    else head
  | none => head

def Sheet.structs (attributes : List AttributeSpan) : List Struct :=
  (structHead.findAll d.masked).map (d.struct attributes)

def usePattern : Pattern :=
  .lineStart ++ .blanks ++ .opt (.lit "pub" ++ .blanks1) ++ .lit "use" ++ .blanks1
    ++ .mark 1 (.some1 (.noneOf ";")) ++ .char ';'

def Model.ofText (text : String) : Model :=
  let d := Sheet.ofText text.toList
  let attributes := attributeSpans d.masked
  let modules := d.modules attributes
  { lines := d.lines
    functions := d.functions attributes modules
    structs := d.structs attributes
    modules := modules
    uses := (usePattern.findAll d.masked).map fun m => String.ofList (collapse (m.group 1)) }

end ContractAudit.Source
