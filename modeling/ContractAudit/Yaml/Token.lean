import ContractAudit.Finding.Diagnostic
import ContractAudit.Text.Utf8
import ContractAudit.Value.JsonReader

/-! # Tokens of YAML -/

namespace ContractAudit.Yaml

inductive YamlError where
  | character
  | misplaced
  | missingColon
  | endOfText
  | escape
  | layout
  | alias
  | key
  | documents
  | directive
  | tag
  | content
  /-- The text is YAML, but what it names cannot be made. -/
  | unmade (f : Fault)
deriving DecidableEq, Repr

inductive Directive where
  | version (major minor : Nat)
  | handle (name start : String)
  | other
deriving DecidableEq, Repr

inductive Token where
  | directive (d : Directive)
  | documentStart
  | documentEnd
  | blockSequence
  | blockMapping
  | blockEnd
  | flowSequence
  | flowSequenceEnd
  | flowMapping
  | flowMappingEnd
  | blockEntry
  | flowEntry
  | key
  | value
  | alias (name : String)
  | anchor (name : String)
  | tag (handle : Option String) (suffix : String)
  /-- A scalar; an unquoted one is plain. -/
  | scalar (text : String) (plain : Bool)
deriving DecidableEq, Repr

structure KeyPlace where
  token : Nat
  /-- The text is wrong if this is no key. -/
  required : Bool
  index : Nat
  line : Nat
  column : Nat

structure Scan where
  rest : List Char
  index : Nat := 0
  line : Nat := 0
  column : Nat := 0
  flow : Nat := 0
  indent : Int := -1
  indents : List Int := []
  allowKey : Bool := true
  /-- Where a key may have begun, for each depth of brackets. -/
  keys : List (Nat × KeyPlace) := []
  tokens : Array Token := #[]

abbrev Step := Except YamlError Scan

def isBreak (c : Char) : Bool :=
  c == '\n' || c == '\r' || c.toNat == 0x85 || c.toNat == 0x2028 || c.toNat == 0x2029

def isGap : Option Char → Bool
  | none => true
  | some c => c == ' ' || c == '\t' || isBreak c

namespace Scan
variable (s : Scan)

def peek : Option Char := s.rest.head?

def peekAt (n : Nat) : Option Char := s.rest[n]?

def forward1 : Scan :=
  match s.rest with
  | [] => s
  | c :: r =>
    if c == '\n' || c.toNat == 0x85 || c.toNat == 0x2028 || c.toNat == 0x2029
        || (c == '\r' && r.head? != some '\n') then
      { s with rest := r, index := s.index + 1, line := s.line + 1, column := 0 }
    else if c.toNat == 0xfeff then { s with rest := r, index := s.index + 1 }
    else { s with rest := r, index := s.index + 1, column := s.column + 1 }

def forward (s : Scan) : Nat → Scan
  | 0 => s
  | n + 1 => s.forward1.forward n

def skip (p : Char → Bool) : Scan := s.forward (s.rest.takeWhile p).length

def skipSpaces : Scan := s.skip (· == ' ')

def push (s : Scan) (t : Token) : Scan := { s with tokens := s.tokens.push t }

/-- A line break at the place, as it counts in a scalar, and the state after it. -/
def lineBreak? : Option (List Char × Scan) :=
  match s.rest with
  | '\r' :: '\n' :: _ => some (['\n'], s.forward 2)
  | c :: _ =>
    if c == '\r' || c == '\n' || c.toNat == 0x85 then some (['\n'], s.forward1)
    else if isBreak c then some ([c], s.forward1)
    else none
  | [] => none

def atDocumentMark : Bool :=
  (s.rest.take 3 == ['-', '-', '-'] || s.rest.take 3 == ['.', '.', '.']) && isGap (s.peekAt 3)

/-! ### Keys and indentation -/

def dropKey : Step :=
  match s.keys.lookup s.flow with
  | some k => if k.required then .error .missingColon
    else .ok { s with keys := s.keys.filter (·.1 != s.flow) }
  | none => .ok s

/-- Gives up keys that began on an earlier line or too far back. -/
def dropStaleKeys : Step :=
  let stale (k : KeyPlace) : Bool := k.line != s.line || 1024 < s.index - k.index
  if s.keys.any fun e => stale e.2 && e.2.required then .error .missingColon
  else .ok { s with keys := s.keys.filter fun e => !stale e.2 }

def saveKey : Step :=
  if s.allowKey then do
    let t ← s.dropKey
    let required := s.flow == 0 && s.indent == s.column
    .ok { t with keys := (s.flow, ⟨s.tokens.size, required, s.index, s.line, s.column⟩) :: t.keys }
  else .ok s

/-- Closes the blocks that are indented deeper than a column; `fuel` bounds their number. -/
def unwind (column : Int) : (fuel : Nat) → Scan → Scan
  | 0, s => s
  | fuel + 1, s =>
    if s.flow == 0 && column < s.indent then
      match s.indents with
      | i :: r => unwind column fuel { s.push .blockEnd with indent := i, indents := r }
      | [] => s
    else s

def unwindTo (column : Int) : Scan := unwind column (s.indents.length + 1) s

def openBlock (column : Nat) : Option Scan :=
  if s.indent < column then
    some { s with indents := s.indent :: s.indents, indent := column }
  else none

/-! ### White space and comments -/

def skipComment : Scan := if s.peek == some '#' then s.skip (!isBreak ·) else s

def skipGaps : (fuel : Nat) → Scan → Scan
  | 0, s => s
  | fuel + 1, s =>
    let s := s.skipSpaces.skipComment
    match s.lineBreak? with
    | some (_, t) => skipGaps fuel (if t.flow == 0 then { t with allowKey := true } else t)
    | none => s

/-! ### Scalars -/

/-- What stands for the line break of a folded scalar, given the further breaks after it. -/
def foldBreak (first more : List Char) : List Char :=
  if first != ['\n'] then first ++ more else if more.isEmpty then [' '] else more

/-- Spaces and line breaks inside a plain scalar, in at most `fuel` lines; the result is nothing
    at the mark of a document. -/
def plainBreaks : (fuel : Nat) → Scan → Option (List Char × Scan)
  | 0, s => some ([], s)
  | fuel + 1, s =>
    let s := s.skipSpaces
    match s.lineBreak? with
    | none => some ([], s)
    | some (b, s) =>
      if s.atDocumentMark then none
      else (plainBreaks fuel s).map fun (more, s) => (b ++ more, s)

def plainSpaces : List Char × Scan :=
  let spaces := s.rest.takeWhile (· == ' ')
  let t := s.forward spaces.length
  match t.lineBreak? with
  | none => (spaces, t)
  | some (b, t) =>
    let t := { t with allowKey := true }
    if t.atDocumentMark then ([], t)
    else match plainBreaks t.rest.length t with
      | none => ([], t)
      | some (more, t) => (foldBreak b more, t)

def plainRun (flow : Bool) : List Char → List Char
  | [] => []
  | c :: r =>
    if isGap (some c)
        || (c == ':' && (isGap r.head? || (flow && r.head?.any (",[]\x7b\x7d".toList.contains ·))))
        || (flow && ",?[]\x7b\x7d".toList.contains c) then []
    else c :: plainRun flow r

/-- The text of a plain scalar, with `spaces` before its next part, in at most `fuel` parts. -/
def plainText (indent : Int) : (fuel : Nat) → (spaces : List Char) → Scan → List Char × Scan
  | 0, _, s => ([], s)
  | fuel + 1, spaces, s =>
    let run := if s.peek == some '#' then [] else plainRun (s.flow != 0) s.rest
    if run.isEmpty then ([], s)
    else
      let s := { s.forward run.length with allowKey := false }
      let (next, t) := s.plainSpaces
      if next.isEmpty || t.peek == some '#' || (t.flow == 0 && t.column < indent) then
        (spaces ++ run, t)
      else
        let (more, t) := plainText indent fuel next t
        (spaces ++ run ++ more, t)

/-- The letters that are written after a backslash, each with what it stands for. -/
def escapes : List (Char × Nat) :=
  [('0', 0), ('a', 7), ('b', 8), ('t', 9), ('n', 10), ('v', 11), ('f', 12), ('r', 13), ('e', 27), ('"', 34),
    ('\\', 92), ('N', 0x85), ('_', 0xa0), ('L', 0x2028), ('P', 0x2029)]

def readEscapes : List (Char × Nat) := escapes ++ [('\t', 9), (' ', 32), ('/', 47)]

def escapeWidths : List (Char × Nat) := [('x', 2), ('u', 4), ('U', 8)]

def largestCode : Nat := 0x7fffffff

def charOfCode (n : Nat) : Except YamlError Char :=
  if n < 0x110000 then .ok (Char.ofNat n)
  else if n ≤ largestCode then
    .error (.unmade ⟨"ValueError", "chr() arg not in range(0x110000)"⟩)
  else .error (.unmade ⟨"OverflowError", "Python int too large to convert to C int"⟩)

def hexChar (ds : List Char) : Except YamlError Char :=
  match ds.mapM Json.hexValue? with
  | none => .error .escape
  | some vs => charOfCode (vs.foldl (fun n v => 16 * n + v) 0)

/-- A part of a text before what is read of it. -/
def before (part : List Char) (r : Except YamlError (List Char × Scan)) : Except YamlError (List Char × Scan) :=
  r.map fun (more, s) => (part ++ more, s)

def isSpace (c : Char) : Bool := c == ' ' || c == '\t'

def quotedBreaks : (fuel : Nat) → Scan → Except YamlError (List Char × Scan)
  | 0, s => .ok ([], s)
  | fuel + 1, s =>
    if s.atDocumentMark then .error .misplaced
    else
      let s := s.skip isSpace
      match s.lineBreak? with
      | none => .ok ([], s)
      | some (b, s) => before b (quotedBreaks fuel s)

def quotedText (double : Bool) : (fuel : Nat) → Scan → Except YamlError (List Char × Scan)
  | 0, _ => .error .endOfText
  | fuel + 1, s => match s.rest with
    | [] => .error .endOfText
    | c :: r =>
      if isGap (some c) then
        let spaces := s.rest.takeWhile isSpace
        let t := s.forward spaces.length
        match t.lineBreak? with
        | none => before spaces (quotedText double fuel t)
        | some (b, t) => do
          let (breaks, t) ← quotedBreaks t.rest.length.succ t
          before (foldBreak b breaks) (quotedText double fuel t)
      else if c == (if double then '"' else '\'') then
        if !double && r.head? == some '\'' then before ['\''] (quotedText double fuel (s.forward 2))
        else .ok ([], s.forward1)
      else if double && c == '\\' then
        match r with
        | [] => .error .escape
        | e :: ds => match readEscapes.lookup e, escapeWidths.lookup e with
          | some n, _ => before [Char.ofNat n] (quotedText double fuel (s.forward 2))
          | none, some w => do
            if ds.length < w then .error .escape
            before [← hexChar (ds.take w)] (quotedText double fuel (s.forward (2 + w)))
          | none, none => match s.forward1.lineBreak? with
            | none => .error .escape
            | some (_, t) => do
              let (breaks, t) ← quotedBreaks t.rest.length.succ t
              before breaks (quotedText double fuel t)
      else before [c] (quotedText double fuel s.forward1)

def blockBreaks (indent : Nat) : (fuel : Nat) → Scan → List Char × Scan
  | 0, s => ([], s)
  | fuel + 1, s =>
    let spaces := (s.rest.takeWhile (· == ' ')).length
    let s := s.forward (min spaces (indent - s.column))
    match s.lineBreak? with
    | none => ([], s)
    | some (b, s) =>
      let (more, s) := blockBreaks indent fuel s
      (b ++ more, s)

/-- The deepest column reached by the blank lines before a block scalar and by its first line. -/
def blockIndent : (fuel : Nat) → Scan → Nat
  | 0, _ => 0
  | fuel + 1, s =>
    let s := s.skipSpaces
    match s.lineBreak? with
    | none => s.column
    | some (_, t) => max s.column (blockIndent fuel t)

inductive Chomping where
  | clip
  | strip
  | keep
deriving DecidableEq

def blockLines (folded : Bool) (chomping : Chomping) (indent : Nat) :
    (fuel : Nat) → (breaks : List Char) → Scan → List Char × Scan
  | 0, _, s => ([], s)
  | fuel + 1, breaks, s =>
    if s.column != indent || s.rest.isEmpty then
      (if chomping == .keep then breaks else [], s)
    else
      let inner := !s.peek.any isSpace
      let text := s.rest.takeWhile fun c => !isBreak c
      let s := s.forward text.length
      let (b, s) := match s.lineBreak? with
        | some (b, s) => (b, s)
        | none => ([], s)
      let (more, s) := blockBreaks indent (s.rest.length + 1) s
      if s.column == indent && !s.rest.isEmpty then
        let lead := if folded && b == ['\n'] && inner && !s.peek.any isSpace
          then (if more.isEmpty then [' '] else []) else b
        let (rest, s) := blockLines folded chomping indent fuel more s
        (breaks ++ text ++ lead ++ rest, s)
      else
        let ending := match chomping with
          | .strip => []
          | .clip => b
          | .keep => b ++ more
        (breaks ++ text ++ ending, s)

/-- The indicators after the mark of a block scalar: how its end is kept and how deep it is. -/
def blockIndicators : Except YamlError (Chomping × Option Nat × Scan) :=
  let chomp (s : Scan) : Option (Chomping × Scan) := match s.peek with
    | some '+' => some (.keep, s.forward1)
    | some '-' => some (.strip, s.forward1)
    | _ => none
  let depth (s : Scan) : Except YamlError (Option Nat × Scan) := match s.peek with
    | some c => if c.isDigit then
        if c == '0' then .error .character else .ok (some (c.toNat - 48), s.forward1)
      else .ok (none, s)
    | none => .ok (none, s)
  match chomp s with
  | some (k, s) => do
    let (n, s) ← depth s
    .ok (k, n, s)
  | none => do
    let (n, s) ← depth s
    match chomp s with
    | some (k, s) => .ok (k, n, s)
    | none => .ok (.clip, n, s)

def blockScalar (folded : Bool) (s : Scan) : Step := do
  let s ← ({ s with allowKey := true } : Scan).dropKey
  let (chomping, depth, s) ← s.forward1.blockIndicators
  if !isGap s.peek then .error .character
  let s := s.skipSpaces.skipComment
  let s ← match s.lineBreak? with
    | some (_, s) => Except.ok s
    | none => if s.rest.isEmpty then .ok s else .error .character
  let least := (max (s.indent + 1) 1).toNat
  let indent := match depth with
    | some n => least + n - 1
    | none => max least (blockIndent (s.rest.length + 1) s)
  let (breaks, s) := blockBreaks indent (s.rest.length + 1) s
  let (text, s) := blockLines folded chomping indent (s.rest.length + 1) breaks s
  .ok (s.push (.scalar (String.ofList text) false))

def isWordChar (c : Char) : Bool := c.isAlphanum || c == '-' || c == '_'

def anchorName : Except YamlError (String × Scan) :=
  let name := s.rest.takeWhile isWordChar
  let s := s.forward name.length
  if name.isEmpty then .error .character
  else if isGap s.peek || s.peek.any ("?:,]\x7d%@`".toList.contains ·) then
    .ok (String.ofList name, s)
  else .error .character

/-! ### Tags and directives -/

def atEnd : Bool := s.peek.all fun c => c == ' ' || isBreak c

def escapedBytes : List Char → Except YamlError (List UInt8 × Nat)
  | '%' :: a :: b :: r => match Json.hexValue? a, Json.hexValue? b with
    | some x, some y => do
      let (more, n) ← escapedBytes r
      .ok (UInt8.ofNat (16 * x + y) :: more, n + 3)
    | _, _ => .error .tag
  | '%' :: _ => .error .tag
  | _ => .ok ([], 0)

def isTagChar (c : Char) : Bool :=
  c.isAlphanum || "-;/?:@&=+$,_.!~*'()[]%".toList.contains c

/-- The name in a tag, in which escapes stand for bytes in UTF-8, in at most `fuel` parts. -/
def tagText : (fuel : Nat) → Scan → Except YamlError (List Char × Scan)
  | 0, s => .ok ([], s)
  | fuel + 1, s => do
    let run := s.rest.takeWhile fun c => isTagChar c && c != '%'
    let s := s.forward run.length
    if s.peek != some '%' then return (run, s)
    let (bytes, n) ← escapedBytes s.rest
    match Text.decode bytes with
    | .error _ => throw .tag
    | .ok cs =>
      let (more, s) ← tagText fuel (s.forward n)
      return (run ++ cs ++ more, s)

def tagUri : Except YamlError (String × Scan) := do
  if !s.peek.any isTagChar then throw .tag
  let (cs, s) ← tagText (s.rest.length + 1) s
  return (String.ofList cs, s)

/-- The handle of a tag: a word between exclamation marks, or one mark before a space. -/
def tagHandle : Except YamlError (String × Scan) :=
  match s.rest with
  | '!' :: ' ' :: _ => .ok ("!", s.forward1)
  | '!' :: r =>
    let word := r.takeWhile isWordChar
    if r[word.length]? == some '!' then
      .ok (String.ofList ('!' :: word ++ ['!']), s.forward (word.length + 2))
    else .error .tag
  | _ => .error .tag

def tagName : Except YamlError (Option String × String × Scan) := do
  let (handle, suffix, s) ← match s.peekAt 1 with
    | some '<' => do
      let (uri, s) ← (s.forward 2).tagUri
      if s.peek == some '>' then pure (none, uri, s.forward1) else throw .tag
    | c =>
      if isGap c then pure (none, "!", s.forward1)
      else if (s.rest.tail.takeWhile fun c => c != ' ' && !isBreak c).contains '!' then do
        let (handle, s) ← s.tagHandle
        let (uri, s) ← s.tagUri
        pure (some handle, uri, s)
      else do
        let (uri, s) ← s.forward1.tagUri
        pure (some "!", uri, s)
  if s.atEnd then return (handle, suffix, s) else throw .tag

def versionNumber : Except YamlError (Nat × Scan) :=
  let ds := s.rest.takeWhile Char.isDigit
  if ds.isEmpty then .error .directive else .ok (Json.digitsValue ds, s.forward ds.length)

def directiveValue (name : String) (s : Scan) : Except YamlError (Directive × Scan) :=
  match name with
  | "YAML" => do
    let (major, s) ← s.skipSpaces.versionNumber
    if s.peek != some '.' then throw .directive
    let (minor, s) ← s.forward1.versionNumber
    if s.atEnd then return (.version major minor, s) else throw .directive
  | "TAG" => do
    let (handle, s) ← s.skipSpaces.tagHandle
    if s.peek != some ' ' then throw .directive
    let (start, s) ← s.skipSpaces.tagUri
    if s.atEnd then return (.handle handle start, s) else throw .directive
  | _ => .ok (.other, s.skip (!isBreak ·))

def directiveLine : Except YamlError (Directive × Scan) := do
  let name := s.rest.takeWhile isWordChar
  let s := s.forward name.length
  if name.isEmpty || !s.atEnd then throw .directive
  let (d, s) ← directiveValue (String.ofList name) s
  let s := s.skipSpaces.skipComment
  if s.peek.all isBreak then
    return (d, ((s.lineBreak?).map (·.2)).getD s)
  else throw .directive

/-! ### Fetching tokens -/

def flowStart (t : Token) : Step := do
  let s ← s.saveKey
  .ok ({ s with flow := s.flow + 1, allowKey := true }.forward1.push t)

def flowEnd (t : Token) : Step := do
  let s ← s.dropKey
  .ok ({ s with flow := s.flow - 1, allowKey := false }.forward1.push t)

def documentMark (t : Token) : Step := do
  let s ← (s.unwindTo (-1)).dropKey
  .ok (({ s with allowKey := false }.forward 3).push t)

/-- A mark outside of brackets, which opens a block where it stands deeper than the block around it. -/
def blockMark (block mark : Token) (allowKey : Bool) : Step := do
  let s ← if s.flow != 0 then Except.ok s
    else if !s.allowKey then .error .misplaced
    else .ok (((s.openBlock s.column).map (·.push block)).getD s)
  let s ← ({ s with allowKey } : Scan).dropKey
  .ok (s.forward1.push mark)

def insertToken (n : Nat) (t : Token) : Scan :=
  { s with tokens := (s.tokens.toList.insertIdx n t).toArray }

def valueMark : Step :=
  match s.keys.lookup s.flow with
  | some k =>
    let s := { s with keys := s.keys.filter (·.1 != s.flow) }.insertToken k.token .key
    let s := if s.flow != 0 then s
      else ((s.openBlock k.column).map (·.insertToken k.token .blockMapping)).getD s
    .ok ({ s with allowKey := false }.forward1.push .value)
  | none => s.blockMark .blockMapping .value (s.flow == 0)

def anchorMark (make : String → Token) : Step := do
  let s ← s.saveKey
  let (name, s) ← ({ s with allowKey := false } : Scan).forward1.anchorName
  .ok (s.push (make name))

def tagMark : Step := do
  let s ← s.saveKey
  let (handle, suffix, s) ← s.tagName
  .ok (({ s with allowKey := false }).push (.tag handle suffix))

def directiveMark : Step := do
  let s ← (s.unwindTo (-1)).dropKey
  let (d, s) ← ({ s with allowKey := false }).forward1.directiveLine
  .ok (s.push (.directive d))

def quotedScalar (double : Bool) : Step := do
  let s ← s.saveKey
  let s := { s with allowKey := false }.forward1
  let (text, s) ← quotedText double (s.rest.length + 1) s
  .ok (s.push (.scalar (String.ofList text) false))

def plainScalar : Step := do
  let s ← s.saveKey
  let (text, s) := plainText (s.indent + 1) (s.rest.length + 1) [] { s with allowKey := false }
  .ok (s.push (.scalar (String.ofList text) true))

def startsPlain (c : Char) : Bool :=
  !(isGap (some c) || "-?:,[]\x7b\x7d#&*!|>'\"%@`".toList.contains c)
    || (!isGap (s.peekAt 1) && (c == '-' || (s.flow == 0 && (c == '?' || c == ':'))))

def fetch (c : Char) : Step :=
  if c == '%' && s.column == 0 then s.directiveMark
  else if s.column == 0 && s.atDocumentMark then
    s.documentMark (if c == '-' then .documentStart else .documentEnd)
  else if c == '[' then s.flowStart .flowSequence
  else if c == '{' then s.flowStart .flowMapping
  else if c == ']' then s.flowEnd .flowSequenceEnd
  else if c == '}' then s.flowEnd .flowMappingEnd
  else if c == ',' then do
    let s ← ({ s with allowKey := true } : Scan).dropKey
    .ok (s.forward1.push .flowEntry)
  else if c == '-' && isGap (s.peekAt 1) then s.blockMark .blockSequence .blockEntry true
  else if c == '?' && (s.flow != 0 || isGap (s.peekAt 1)) then
    s.blockMark .blockMapping .key (s.flow == 0)
  else if c == ':' && (s.flow != 0 || isGap (s.peekAt 1)) then s.valueMark
  else if c == '*' then s.anchorMark .alias
  else if c == '&' then s.anchorMark .anchor
  else if c == '!' then s.tagMark
  else if c == '|' && s.flow == 0 then s.blockScalar false
  else if c == '>' && s.flow == 0 then s.blockScalar true
  else if c == '\'' then s.quotedScalar false
  else if c == '"' then s.quotedScalar true
  else if s.startsPlain c then s.plainScalar
  else .error .character

def run : (fuel : Nat) → Scan → Step
  | 0, _ => .error .endOfText
  | fuel + 1, s => do
    let s := skipGaps (s.rest.length + 1) s
    let s ← s.dropStaleKeys
    let s := s.unwindTo s.column
    match s.peek with
    | none => (s.unwindTo (-1)).dropKey
    | some c => run fuel (← s.fetch c)

end Scan

def isAllowed (c : Char) : Bool :=
  let n := c.toNat
  n == 9 || n == 10 || n == 13 || (0x20 ≤ n && n ≤ 0x7e) || n == 0x85
    || (0xa0 ≤ n && n ≤ 0xfffd) || 0x10000 ≤ n

def tokens (text : String) : Except YamlError (List Token) := do
  if !text.toList.all isAllowed then .error .character
  let rest := match text.toList with
    | c :: r => if c.toNat == 0xfeff then r else c :: r
    | [] => []
  let s ← Scan.run (rest.length + 2) { rest }
  .ok s.tokens.toList

end ContractAudit.Yaml
