import ContractAudit.Text.Word

/-! # Text patterns -/

namespace ContractAudit.Text

/-- A place in a text: the character before it, how many characters are before it, and the rest. -/
structure Cursor where
  last : Option Char := none
  offset : Nat := 0
  rest : List Char

def Cursor.next (c : Cursor) : Option (Char × Cursor) :=
  match c.rest with
  | [] => none
  | a :: r => some (a, ⟨some a, c.offset + 1, r⟩)

structure Capture where
  start : Nat
  rest : List Char
  length : Nat

def Capture.text (c : Capture) : List Char := c.rest.take c.length

/-- The marked stretches so far, the newest first, each with its number. -/
abbrev Captures := List (Nat × Capture)

inductive Pattern where
  | empty
  | one (accepts : Char → Bool)
  /-- The empty text at a place whose neighbours pass a test. -/
  | here (holds : Option Char → Option Char → Bool)
  | seq (first second : Pattern)
  /-- The first pattern or, failing that, the second. -/
  | alt (first second : Pattern)
  | many (body : Pattern)
  | few (body : Pattern)
  | mark (index : Nat) (body : Pattern)

namespace Pattern

/-- What follows a match: it takes the place after it and the marks made. -/
abbrev Continuation (α : Type) := Cursor → Captures → Option α

/-- Repetitions of a step that each go forward, the longest run first, and no more of them than
    `bound` has characters. -/
def repeatGreedy {α : Type} (step : Cursor → Captures → Continuation α → Option α) :
    (bound : List Char) → Cursor → Captures → Continuation α → Option α
  | [], c, m, k => k c m
  | _ :: bound, c, m, k =>
    (step c m fun c' m' => if c.offset < c'.offset then repeatGreedy step bound c' m' k else none)
      <|> k c m

def repeatLazy {α : Type} (step : Cursor → Captures → Continuation α → Option α) :
    (bound : List Char) → Cursor → Captures → Continuation α → Option α
  | [], c, m, k => k c m
  | _ :: bound, c, m, k =>
    k c m
      <|> step c m fun c' m' => if c.offset < c'.offset then repeatLazy step bound c' m' k else none

/-- The answer of `k` at the first match, in order of preference, that `k` accepts. -/
def run {α : Type} : Pattern → Cursor → Captures → Continuation α → Option α
  | .empty, c, m, k => k c m
  | .one p, c, m, k =>
    match c.rest with
    | [] => none
    | a :: r => if p a then k ⟨some a, c.offset + 1, r⟩ m else none
  | .here p, c, m, k => if p c.last c.rest.head? then k c m else none
  | .seq p q, c, m, k => run p c m fun c' m' => run q c' m' k
  | .alt p q, c, m, k => run p c m k <|> run q c m k
  | .many p, c, m, k => repeatGreedy (run p) c.rest c m k
  | .few p, c, m, k => repeatLazy (run p) c.rest c m k
  | .mark i p, c, m, k =>
    run p c m fun c' m' => k c' ((i, ⟨c.offset, c.rest, c'.offset - c.offset⟩) :: m')

end Pattern

structure Match where
  start : Nat
  stop : Cursor
  captures : Captures

def Match.finish (m : Match) : Nat := m.stop.offset

def Match.capture? (m : Match) (i : Nat) : Option Capture :=
  (m.captures.find? fun e => e.1 == i).map (·.2)

def Match.group (m : Match) (i : Nat) : List Char := ((m.capture? i).map (·.text)).getD []

def Match.groupText (m : Match) (i : Nat) : String := String.ofList (m.group i)

namespace Pattern
variable (p : Pattern) (s : List Char)

def matchAt (c : Cursor) : Option Match :=
  p.run c [] fun c' m => some ⟨c.offset, c', m⟩

def matchStart : Option Match := p.matchAt ⟨none, 0, s⟩

def matchesAll : Bool :=
  (p.run ⟨none, 0, s⟩ [] fun c _ => if c.rest.isEmpty then some () else none).isSome

def searchFrom (p : Pattern) : Option Char → Nat → List Char → Option Match
  | last, n, [] => p.matchAt ⟨last, n, []⟩
  | last, n, c :: s =>
    match p.matchAt ⟨last, n, c :: s⟩ with
    | some m => some m
    | none => searchFrom p (some c) (n + 1) s

def search : Option Match := p.searchFrom none 0 s

def occursIn : Bool := (p.search s).isSome

/-- The matches at or after a place, each after the end of the one before; the first `skip`
    characters belong to a match already found. -/
def findFrom (p : Pattern) : (skip : Nat) → Option Char → Nat → List Char → List Match
  | _, _, _, [] => []
  | skip + 1, _, n, c :: s => findFrom p skip (some c) (n + 1) s
  | 0, last, n, c :: s =>
    match p.matchAt ⟨last, n, c :: s⟩ with
    | some m => m :: findFrom p (m.finish - n - 1) (some c) (n + 1) s
    | none => findFrom p 0 (some c) (n + 1) s

def findAll : List Match := p.findFrom 0 none 0 s

instance : Append Pattern := ⟨seq⟩

instance : OrElse Pattern := ⟨fun p q => alt p (q ())⟩

def char (c : Char) : Pattern := one (· == c)

def lit (s : String) : Pattern := s.toList.foldr (fun c p => seq (char c) p) empty

def anyOf (s : String) : Pattern := one fun c => s.toList.contains c

def noneOf (s : String) : Pattern := one fun c => !s.toList.contains c

def opt : Pattern := alt p empty

def some1 : Pattern := seq p (many p)

def oneOf : List Pattern → Pattern
  | [] => one fun _ => false
  | [p] => p
  | p :: ps => alt p (oneOf ps)

def blanks : Pattern := many (one isBlank)

def blanks1 : Pattern := some1 (one isBlank)

def wordChar : Pattern := one isWordChar

def name : Pattern := one isIdentStart ++ many wordChar

def ident : Pattern := one isIdentStart ++ many (one isIdentChar)

def digit : Pattern := one isDecimalDigit

def wordEdge : Pattern :=
  here fun a b => a.any isWordChar != b.any isWordChar

/-- The next character, if any, is none of those of a text. -/
def notBefore (s : String) : Pattern := here fun _ b => !b.any s.toList.contains

def lineStart : Pattern := here fun a _ => a.all (· == '\n')

def lineEnd : Pattern := here fun _ b => b.all (· == '\n')

def textEnd : Pattern := here fun _ b => b.isNone

def inLine : Pattern := one (· != '\n')

def anyChar : Pattern := one fun _ => true

def word (s : String) : Pattern := wordEdge ++ lit s ++ wordEdge

end Pattern

end ContractAudit.Text
