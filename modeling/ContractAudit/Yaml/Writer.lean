import ContractAudit.Value.Order
import ContractAudit.Yaml.Data

/-! # Writing YAML -/

namespace ContractAudit.Yaml
open Text

def isLineEnd (c : Char) : Bool :=
  c == '\n' || c.toNat == 0x85 || c.toNat == 0x2028 || c.toNat == 0x2029

def isSpecial (c : Char) : Bool := !(c == '\n' || (0x20 ≤ c.toNat && c.toNat ≤ 0x7e))

def marksAtStart (s : List Char) : Bool :=
  ['-', '-', '-'].isPrefixOf s || ['.', '.', '.'].isPrefixOf s
    || match s with
      | c :: r => "#,[]\x7b\x7d&*!|>'\"%@`".toList.contains c
          || ("?:-".toList.contains c && isGap r.head?)
      | [] => false

def marksInside : (last : Char) → List Char → Bool
  | _, [] => false
  | last, c :: r =>
    (c == ':' && isGap r.head?) || (c == '#' && isGap (some last)) || marksInside c r

/-- A space stands right before (or, with `after`, right after) a line end. -/
def spaceAtBreak (after : Bool) : List Char → Bool
  | c :: d :: r =>
    (if after then isLineEnd c && d == ' ' else c == ' ' && isLineEnd d)
      || spaceAtBreak after (d :: r)
  | _ => false

def allowsPlain (s : List Char) : Bool :=
  match s with
  | [] => true
  | c :: r =>
    !(c == ' ' || isLineEnd c || s.getLast?.any (fun d => d == ' ' || isLineEnd d))
      && !s.any isSpecial && !s.any isLineEnd && !marksAtStart s && !marksInside c r

def allowsSingle (s : List Char) : Bool :=
  !s.any isSpecial && !spaceAtBreak true s && !spaceAtBreak false s

def bestWidth : Nat := 80

def spaces (n : Nat) : List Char := List.replicate n ' '

/-- A text without quotes, from a column on; a single space after the best width becomes a new line
    with `indent` spaces. No line ends at a space that is `kept`. -/
def foldPlain (indent : Nat) : (kept : Bool) → (column : Nat) → List Char → List Char
  | _, _, [] => []
  | kept, column, ' ' :: r =>
    if !kept && r.head? != some ' ' && bestWidth < column then
      '\n' :: spaces indent ++ foldPlain indent false indent r
    else ' ' :: foldPlain indent true (column + 1) r
  | _, column, c :: r => c :: foldPlain indent false (column + 1) r

/-- A text inside single quotes, from a column on. -/
def foldSingle (indent : Nat) : (kept : Bool) → (column : Nat) → List Char → List Char
  | _, _, [] => []
  | kept, column, ' ' :: r =>
    if !kept && r.head? != some ' ' && !r.isEmpty && bestWidth < column then
      '\n' :: spaces indent ++ foldSingle indent false indent r
    else ' ' :: foldSingle indent true (column + 1) r
  | _, column, '\'' :: r => '\'' :: '\'' :: foldSingle indent false (column + 2) r
  | _, column, c :: r =>
    if isLineEnd c then
      let run := r.takeWhile isLineEnd
      (if c == '\n' then ['\n'] else []) ++ c :: run ++ spaces indent ++ skipBreaks indent r
    else c :: foldSingle indent false (column + 1) r
where
  skipBreaks (indent : Nat) : List Char → List Char
    | [] => []
    | '\'' :: r => '\'' :: '\'' :: foldSingle indent false (indent + 2) r
    | ' ' :: r => ' ' :: foldSingle indent false (indent + 1) r
    | c :: r => if isLineEnd c then skipBreaks indent r else c :: foldSingle indent false (indent + 1) r

def hexUpper (width n : Nat) : List Char :=
  let ds := (Nat.toDigits 16 n).map Char.toUpper
  List.replicate (width - ds.length) '0' ++ ds

def escapeDouble (c : Char) : List Char :=
  let n := c.toNat
  match Scan.escapes.find? (·.2 == n) with
  | some e => ['\\', e.1]
  | none =>
    if 0x20 ≤ n && n ≤ 0x7e then [c]
    else if n ≤ 0xff then '\\' :: 'x' :: hexUpper 2 n
    else if n ≤ 0xffff then '\\' :: 'u' :: hexUpper 4 n
    else '\\' :: 'U' :: hexUpper 8 n

/-- A text inside double quotes, from a column on; `before` characters of it are written, the last by
    an escape if `escaped` says so. A line that reaches the best width ends at a space or after an
    escape. -/
def foldDouble (indent before column : Nat) (escaped : Bool) : List Char → List Char
  | [] => []
  | c :: r =>
    let e := escapeDouble c
    let inside := 0 < before && !r.isEmpty
    if e != [c] then
      if inside && bestWidth + 1 < column + e.length then
        let spaced := r.head? == some ' '
        e ++ '\\' :: '\n' :: spaces indent ++ (if spaced then ['\\'] else [])
          ++ foldDouble indent (before + 1) (indent + if spaced then 1 else 0) false r
      else e ++ foldDouble indent (before + 1) (column + e.length) true r
    else if inside && (c == ' ' || escaped) && bestWidth < column then
      let mark := if c == ' ' then ['\\'] else []
      '\\' :: '\n' :: spaces indent ++ mark
        ++ c :: foldDouble indent (before + 1) (indent + mark.length + 1) false r
    else c :: foldDouble indent (before + 1) (column + 1) false r

/-- A number with a point; one in scientific notation gets a point too. -/
def floatText (x : Float) : String :=
  if x.isNaN then ".nan"
  else if x.isInf then (if x < 0 then "-.inf" else ".inf")
  else
    let t := (Decimal.text x).toList
    if t.contains '.' then String.ofList t
    else String.ofList (t.takeWhile (· != 'e') ++ (if t.contains 'e' then ['.', '0'] else [])
      ++ t.dropWhile (· != 'e'))

def scalarText : Scalar → Tag × String
  | .null => (.null, "null")
  | .bool b => (.bool, if b then "true" else "false")
  | .int n => (.int, toString n)
  | .float x => (.float, floatText x)
  | .str s => (.str, s)
  | .timestamp t => (.timestamp, t.text)
  | .bytes bs => (.binary, String.ofList (Base64.lines bs))

def tagText (t : Tag) : String :=
  ((tagNames.find? fun e => e.2 == t).map fun e => "!!" ++ e.1).getD ""

inductive Style where
  | plain
  | single
  | double
  | literal
deriving DecidableEq

/-- How a scalar is written; `key` says that it stands before a colon, on one line. -/
def styleOf (key : Bool) (tag : Tag) (s : List Char) : Style :=
  if tag == .binary then (if key || s.isEmpty then .double else .literal)
  else if plainTag (String.ofList s) == tag && allowsPlain s
      && !(key && (s.isEmpty || s.any isLineEnd)) then .plain
  else if allowsSingle s && !(key && s.any isLineEnd) then .single
  else .double

structure Sheet where
  text : List Char := []
  column : Nat := 0
  spaced : Bool := true
  /-- Nothing but spaces and marks of structure stands on the line. -/
  fresh : Bool := true
  written : List Nat := []

namespace Sheet
variable (s : Sheet)

def put (cs : List Char) : Sheet :=
  let last := cs.reverse.takeWhile (· != '\n')
  { s with
    text := cs.reverse ++ s.text
    column := if cs.contains '\n' then last.length else s.column + cs.length }

def newline : Sheet :=
  { s with text := '\n' :: s.text, column := 0, spaced := true, fresh := true }

def indentTo (n : Nat) : Sheet :=
  let s := if !s.fresh || n < s.column || (s.column == n && !s.spaced) then s.newline else s
  if s.column < n then { s.put (spaces (n - s.column)) with spaced := true } else s

def mark (m : String) : Sheet :=
  { s.put (if s.spaced then m.toList else ' ' :: m.toList) with spaced := false, fresh := false }

def close (m : String) : Sheet :=
  { s.put m.toList with spaced := false, fresh := false }

def lead (m : String) : Sheet := { s.mark m with fresh := s.fresh }

def lines (indent : Nat) (cs : List Char) : Sheet :=
  (splitOnChar '\n' cs).foldl
    (fun s line => if line.isEmpty then s else ((s.indentTo indent).put line).newline) s

/-- The sheet with a scalar, whose further lines are indented. -/
def scalar (key : Bool) (indent : Nat) (x : Scalar) : Sheet :=
  let (tag, text) := scalarText x
  let cs := text.toList
  let style := styleOf key tag cs
  let s := if style == .plain || tag == .str then s else s.mark (tagText tag)
  match style with
  | .plain =>
    let s := if s.spaced then s else s.put [' ']
    { s.put (if key then cs else foldPlain indent false s.column cs) with spaced := false, fresh := false }
  | .single =>
    let s := s.mark "'"
    (s.put (if key then cs.flatMap fun c => if c == '\'' then ['\'', '\''] else [c]
      else foldSingle indent true s.column cs)).close "'"
  | .double =>
    let s := s.mark "\""
    (s.put (if key then cs.flatMap escapeDouble
      else foldDouble indent 0 s.column false cs)).close "\""
  | .literal => (s.mark "|").newline.lines indent cs

end Sheet

/-- Entries in the order of their keys, if those are in any; else as they come. -/
def sortByKey (entries : List (Data × Data)) : List (Data × Data) :=
  let key (e : Data × Data) : Scalar := e.1.scalar?.getD .null
  match entries with
  | [] | [_] => entries
  | first :: _ =>
    if entries.all fun e => ((key first).compare? (key e)).isSome then
      entries.mergeSort fun a b => ((key a).le? (key b)).getD true
    else entries

mutual

def Data.sorted : Data → Data
  | .scalar s => .scalar s
  | .timestamp i t => .timestamp i t
  | .list i items => .list i (sortItems items)
  | .pair a b => .pair a.sorted b.sorted
  | .set i items => .set i ((sortByKey (items.map fun k => (k, .scalar .null))).map (·.1))
  | .map i entries => .map i (sortByKey (sortValues entries))

def sortItems : List Data → List Data
  | [] => []
  | d :: s => d.sorted :: sortItems s

def sortValues : List (Data × Data) → List (Data × Data)
  | [] => []
  | (k, v) :: s => (k.sorted, v.sorted) :: sortValues s

end

/-- The numbers that have been met, and the names of those that were met again. -/
structure Anchors where
  met : List Nat := []
  names : List (Nat × String) := []

/-- What is met is looked into for the first time only. -/
def Anchors.visit (a : Anchors) (id : Option Nat) (inside : Anchors → Anchors) : Anchors :=
  match id with
  | none => inside a
  | some i =>
    if !a.met.contains i then inside { a with met := i :: a.met }
    else if (a.names.lookup i).isSome then a
    else { a with names := a.names ++ [(i, "id" ++ paddedNumeral 3 (a.names.length + 1))] }

mutual

def anchorsOf : Data → Anchors → Anchors
  | .scalar _, a => a
  | .timestamp i _, a => a.visit i id
  | .list i items, a | .set i items, a => a.visit i (anchorsOfItems items)
  | .pair x y, a => anchorsOf y (anchorsOf x a)
  | .map i entries, a => a.visit i (anchorsOfEntries entries)

def anchorsOfItems : List Data → Anchors → Anchors
  | [], a => a
  | d :: s, a => anchorsOfItems s (anchorsOf d a)

def anchorsOfEntries : List (Data × Data) → Anchors → Anchors
  | [], a => a
  | (k, v) :: s, a => anchorsOfEntries s (anchorsOf v (anchorsOf k a))

end

def step : Nat := 2

abbrev Names := List (Nat × String)

/-- What has a name is written once, with its name; after that the name stands for it. -/
def Sheet.visit (s : Sheet) (names : Names) (id : Option Nat) (inside : Sheet → Sheet) : Sheet :=
  match id with
  | none => inside s
  | some i => match names.lookup i with
    | none => inside s
    | some name =>
      if s.written.contains i then s.mark ("*" ++ name)
      else inside { s.mark ("&" ++ name) with written := i :: s.written }

def keyWidth : Nat := 128

def isSimpleKey (s : Sheet) (names : Names) (k : Data) : Bool :=
  let name := ((k.id?.bind fun i => names.lookup i).map String.length).getD 0
  if k.id?.any s.written.contains then name < keyWidth
  else
    let (tag, text) := scalarText (k.scalar?.getD .null)
    name + (tagText tag).length + text.length < keyWidth
      && !text.isEmpty && !text.toList.any isLineEnd

def Sheet.leaf (s : Sheet) (names : Names) (key : Bool) (indent : Nat) (d : Data) : Sheet :=
  s.visit names d.id? fun s => s.scalar key indent (d.scalar?.getD .null)

def Sheet.key (s : Sheet) (names : Names) (indent : Nat) (k : Data) : Sheet :=
  let s := s.indentTo indent
  if isSimpleKey s names k then (s.leaf names true (indent + step) k).close ":"
  else (((s.lead "?").leaf names false (indent + step) k).indentTo indent).lead ":"

/-- The column of the parts of a list or map, inside of one at a column if there is one. A list as the
    value of a key need not be indented. -/
def blockColumn (indent : Option Nat) (aligned : Bool) : Nat :=
  match indent with
  | none => 0
  | some n => if aligned then n else n + step

mutual

def write (names : Names) (value : Bool) (indent : Option Nat) : Data → Sheet → Sheet
  | .scalar x, s => s.scalar false (blockColumn (indent <|> some 0) false) x
  | .timestamp i t, s => s.leaf names false (blockColumn (indent <|> some 0) false) (.timestamp i t)
  | .list i items, s => s.visit names i fun s =>
    if items.isEmpty then s.mark "[]" else writeItems names (blockColumn indent (value && !s.fresh)) items s
  | .pair a b, s =>
    let column := blockColumn indent (value && !s.fresh)
    let s := write names false (some column) a ((s.indentTo column).lead "-")
    write names false (some column) b ((s.indentTo column).lead "-")
  | .set i items, s => s.visit names i fun s =>
    let s := s.mark (tagText .set)
    if items.isEmpty then s.mark "\x7b\x7d"
    else
      let column := blockColumn indent false
      items.foldl (fun s k => (s.key names column k).scalar false (column + step) .null) s
  | .map i entries, s => s.visit names i fun s =>
    if entries.isEmpty then s.mark "\x7b\x7d" else writeEntries names (blockColumn indent false) entries s

def writeItems (names : Names) (column : Nat) : List Data → Sheet → Sheet
  | [], s => s
  | d :: r, s =>
    writeItems names column r (write names false (some column) d ((s.indentTo column).lead "-"))

def writeEntries (names : Names) (column : Nat) : List (Data × Data) → Sheet → Sheet
  | [], s => s
  | (k, v) :: r, s =>
    writeEntries names column r (write names true (some column) v (s.key names column k))

end

def render (d : Data) : String :=
  let d := d.sorted
  let s := write (anchorsOf d {}).names false none d {}
  String.ofList (s.indentTo 0).text.reverse

end ContractAudit.Yaml
