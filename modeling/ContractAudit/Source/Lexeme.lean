import ContractAudit.Text.Word

/-! # Masking comments and literals -/

namespace ContractAudit.Source
open Text
variable (s : List Char)

inductive LexemeKind where
  | code
  | lineComment
  | blockComment
  | string
  | rawString
  | character
deriving DecidableEq, Repr

/-- A piece of source text: an opening and a closing part that are shown, and a body between them
    that is blanked. -/
structure Lexeme where
  kind : LexemeKind
  opening : List Char
  body : List Char
  closing : List Char
deriving DecidableEq, Repr

def Lexeme.text (l : Lexeme) : List Char := l.opening ++ l.body ++ l.closing

def blankOut (c : Char) : Char := if c == '\n' then c else ' '

def Lexeme.masked (l : Lexeme) : List Char := l.opening ++ l.body.map blankOut ++ l.closing

/-- The part of a block comment after its place, which is `depth` comments deep: up to and with the
    end of the outermost comment, or the whole rest. -/
def blockCommentRest : (depth : Nat) → List Char → List Char
  | _, [] => []
  | _, [c] => [c]
  | depth, '/' :: '*' :: s => '/' :: '*' :: blockCommentRest (depth + 1) s
  | depth, '*' :: '/' :: s =>
    if depth ≤ 1 then ['*', '/'] else '*' :: '/' :: blockCommentRest (depth - 1) s
  | depth, c :: d :: s => c :: blockCommentRest depth (d :: s)

/-- The body of a string literal: up to a quotation mark, a backslash taking the next character. -/
def stringBody : List Char → List Char
  | [] => []
  | ['\\'] => ['\\']
  | '\\' :: c :: s => '\\' :: c :: stringBody s
  | c :: s => if c == '"' then [] else c :: stringBody s

/-- The part of a text before the first place where `stop` begins, and the whole text if `stop`
    begins nowhere. -/
def before (stop : List Char) : List Char → List Char
  | [] => []
  | c :: s => if stop.isPrefixOf (c :: s) then [] else c :: before stop s

def isHexDigit (c : Char) : Bool :=
  c.isDigit || ('a' ≤ c && c ≤ 'f') || ('A' ≤ c && c ≤ 'F')

def escapeBody? : Option (List Char) :=
  match s with
  | 'x' :: a :: b :: '\'' :: _ =>
    if isHexDigit a && isHexDigit b then some ['x', a, b] else none
  | 'u' :: '{' :: r =>
    let digits := r.takeWhile isHexDigit
    if 1 ≤ digits.length && digits.length ≤ 6 && ['}', '\''].isPrefixOf (r.drop digits.length) then
      some ('u' :: '{' :: digits ++ ['}'])
    else none
  | _ => none

def characterBody? : List Char → Option (List Char)
  | '\\' :: s =>
    match escapeBody? s with
    | some b => some ('\\' :: b)
    | none => match s with
      | c :: '\'' :: _ => if c == '\n' then none else some ['\\', c]
      | _ => none
  | c :: '\'' :: _ => if c == '\'' || c == '\n' then none else some [c]
  | _ => none

def rawOpening? : Option (List Char × Nat) :=
  let (lead, r) := match s with
    | 'b' :: 'r' :: r => (['b', 'r'], r)
    | 'r' :: r => (['r'], r)
    | _ => ([], [])
  let hashes := r.takeWhile (· == '#')
  match r.drop hashes.length with
  | '"' :: _ => some (lead ++ hashes ++ ['"'], hashes.length)
  | _ => none

/-- A raw string cannot begin right after a word character. -/
def rawAllowed (last : Option Char) : Bool := !last.any isWordChar

def rawString? (last : Option Char) (s : List Char) : Option Lexeme :=
  if rawAllowed last then
    (rawOpening? s).map fun (opening, hashes) =>
      let stop := '"' :: List.replicate hashes '#'
      let rest := s.drop opening.length
      let body := before stop rest
      ⟨.rawString, opening, body, (rest.drop body.length).take stop.length⟩
  else none

def lexeme (last : Option Char) (c : Char) (s : List Char) : Lexeme :=
  if c == '/' && s.head? == some '/' then
    ⟨.lineComment, [], (c :: s).takeWhile (· != '\n'), []⟩
  else if c == '/' && s.head? == some '*' then
    ⟨.blockComment, [], '/' :: '*' :: blockCommentRest 1 s.tail, []⟩
  else match rawString? last (c :: s) with
    | some l => l
    | none =>
      if c == '"' then
        let body := stringBody s
        ⟨.string, ['"'], body, (s.drop body.length).take 1⟩
      else if c == '\'' then
        match characterBody? s with
        | some body => ⟨.character, ['\''], body, ['\'']⟩
        | none => ⟨.code, ['\''], [], []⟩
      else ⟨.code, [c], [], []⟩

def lexemesFrom (last : Option Char) : List Char → List Lexeme
  | [] => []
  | c :: s =>
    let l := lexeme last c s
    let n := l.text.length - 1
    l :: lexemesFrom (l.text.getLast?.or last) (s.drop n)
termination_by s => s.length
decreasing_by simp only [List.length_drop, List.length_cons]; omega

def lexemes : List Lexeme := lexemesFrom none s

def mask : List Char := (lexemes s).flatMap Lexeme.masked

def maskText (s : String) : String := String.ofList (mask s.toList)

end ContractAudit.Source
