import ContractAudit.Text.Quoted

/-! # Brackets -/

namespace ContractAudit.Source
open Text

inductive DelimiterError where
  | pastEnd
  | notOpening (c : Char)
deriving DecidableEq, Repr

def DelimiterError.message : DelimiterError → String
  | .pastEnd => "string index out of range"
  | .notOpening c => Text.quoted (String.singleton c)

def closer? : Char → Option Char
  | '(' => some ')'
  | '[' => some ']'
  | '{' => some '}'
  | _ => none

/-- The offset at which `depth` brackets are closed, reading on from offset `n`. -/
def closeFrom (opener closer : Char) : (depth n : Nat) → List Char → Option Nat
  | _, _, [] => none
  | depth, n, c :: s =>
    if c == opener then closeFrom opener closer (depth + 1) (n + 1) s
    else if c == closer then
      if depth ≤ 1 then some n else closeFrom opener closer (depth - 1) (n + 1) s
    else closeFrom opener closer depth (n + 1) s

/-- The offset of the bracket that closes the one at offset `pos`, and the last offset of the text if
    none does. The second answer is an error if no bracket opens at `pos`. -/
def matchDelimiter (s : List Char) (pos : Nat) : Except DelimiterError Nat :=
  match s[pos]? with
  | none => .error .pastEnd
  | some opener => match closer? opener with
    | none => .error (.notOpening opener)
    | some closer => match closeFrom opener closer 0 pos (s.drop pos) with
      | some n => .ok n
      | none => .ok (s.length - 1)

/-- The end of the block that opens at `pos`; `pos` itself where nothing opens. -/
def blockEnd (s : List Char) (pos : Nat) : Nat :=
  match matchDelimiter s pos with
  | .ok n => n
  | .error _ => pos

/-- The offset at which the angle brackets of a parameter list close, reading on from offset `n`
    after the character `last`. The arrow `->` closes nothing, and a brace or semicolon ends the list
    right before it. -/
def angleFrom (last : Option Char) : (depth n : Nat) → List Char → Option Nat
  | _, _, [] => none
  | depth, n, c :: s =>
    if c == '<' then angleFrom (some c) (depth + 1) (n + 1) s
    else if c == '>' && last != some '-' then
      if depth ≤ 1 then some n else angleFrom (some c) (depth - 1) (n + 1) s
    else if c == '{' || c == ';' then some (n - 1)
    else angleFrom (some c) depth (n + 1) s

def angleEnd (s : List Char) (pos : Nat) : Nat :=
  match angleFrom none 0 pos (s.drop pos) with
  | some n => n
  | none => s.length - 1

def depthStep (last : Option Char) (c : Char) : Int :=
  if c == '(' || c == '[' || c == '{' || c == '<' then 1
  else if c == ')' || c == ']' || c == '}' then -1
  else if c == '>' && last != some '-' then -1
  else 0

/-- A bracket or angle bracket, which never separates. The head of an arrow is none. -/
def isBracket (last : Option Char) (c : Char) : Bool :=
  "([\x7b<)]\x7d".toList.contains c || (c == '>' && last != some '-')

/-- The chunks of the text `s` at offset `n`, after the character `last` and at a bracket depth; the
    chunk being read began at `start` and is `chunk` so far, its last character first. -/
def chunksFrom (isSep : Char → Bool) (last : Option Char) (depth : Int) (start : Nat)
    (chunk : List Char) (n : Nat) : List Char → List (Nat × List Char)
  | [] => [(start, chunk.reverse)]
  | c :: s =>
    if isBracket last c then
      chunksFrom isSep (some c) (depth + depthStep last c) start (c :: chunk) (n + 1) s
    else if isSep c && depth == 0 then
      (start, chunk.reverse) :: chunksFrom isSep (some c) depth (n + 1) [] (n + 1) s
    else chunksFrom isSep (some c) depth start (c :: chunk) (n + 1) s

/-- The chunks between the separators that stand outside of all brackets, each with its offset. -/
def splitTopLevel (isSep : Char → Bool) (s : List Char) : List (Nat × List Char) :=
  chunksFrom isSep none 0 0 [] 0 s

end ContractAudit.Source
