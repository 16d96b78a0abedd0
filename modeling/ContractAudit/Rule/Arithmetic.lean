import ContractAudit.Rule.Basic

/-! # Unchecked arithmetic -/

namespace ContractAudit.Arithmetic
open Source Text
variable (names : List String)

def valueNames : List String :=
  ["amount", "balance", "lamports", "supply", "price", "fee", "reward", "stake", "total", "deposit",
    "shares", "rate", "collateral", "debt"]

def skippedStarts : List String := ["use ", "#[", "const ", "static ", "pub const ", "type "]

def keywords : List String :=
  ["as", "return", "in", "mut", "let", "if", "else", "match", "move", "ref", "dyn", "impl", "where"]

def safeCall : Pattern :=
  .wordEdge ++ .oneOf [.lit "checked", .lit "saturating", .lit "wrapping", .lit "overflowing"]
    ++ .char '_' ++ .some1 .wordChar

def floatType : Pattern :=
  .wordEdge ++ .char 'f' ++ .oneOf [.lit "32", .lit "64"] ++ .wordEdge

def optCall : Pattern := .opt (.lit "()")

def compound : Pattern :=
  .mark 1 (.one isIdentStart ++ .many (.one fun c => isWordChar c || ".[]".toList.contains c)
    ++ optCall)
    ++ .blanks ++ .mark 2 (.oneOf [.lit "+=", .lit "-=", .lit "*="])

def binary : Pattern :=
  .mark 1 (.oneOf [.name ++ .many (.char '.' ++ .some1 .wordChar) ++ optCall, .char ')'])
    ++ .blanks ++ .mark 2 (.anyOf "+-*") ++ .notBefore "=>" ++ .blanks
    ++ .mark 3 (.oneOf
      [(.one fun c => isIdentStart c || c == '(') ++ .many wordOrDot ++ optCall,
        .digit ++ .many wordOrDot])
where
  wordOrDot : Pattern := .one fun c => isWordChar c || c == '.'

def startsCaseless : (name text : List Char) → Bool
  | [], _ => true
  | _ :: _, [] => false
  | p :: n, c :: s => sameLetter p c && startsCaseless n s

def occursCaseless (name : List Char) : List Char → Bool
  | [] => startsCaseless name []
  | c :: s => startsCaseless name (c :: s) || occursCaseless name s

def isValueLike (operand : List Char) : Bool :=
  names.any fun n => occursCaseless n.toList operand

structure Operation where
  operator : String
  operands : List (List Char)

/-- The match is a computation on values: no operand is a keyword, and where one operand is a
    literal, the other is value-like. -/
def isOperation (left right : List Char) : Bool :=
  if keywords.contains (String.ofList left) || keywords.contains (String.ofList right) then false
  else
    let leftLiteral := left.head?.any isAnyDigit
    let rightLiteral := right.head?.any isAnyDigit
    if leftLiteral && rightLiteral then false
    else if rightLiteral then isValueLike names left
    else if leftLiteral then isValueLike names right
    else true

/-- The first computation on a line of code that is not guarded. -/
def operation? (code : List Char) : Option Operation :=
  let stripped := trim code
  if stripped.isEmpty || skippedStarts.any (fun p => p.toList.isPrefixOf stripped) then none
  else if safeCall.occursIn code || floatType.occursIn code then none
  else match compound.search code with
    | some m =>
      let rest := ((trim (code.drop m.finish)).reverse.dropWhile (· == ';')).reverse
      some ⟨m.groupText 2, [m.group 1, rest]⟩
    | none =>
      ((binary.findAll code).find? fun m => isOperation names (m.group 1) (m.group 3)).map fun m =>
        ⟨m.groupText 2, [m.group 1, m.group 3]⟩

def nestedIn (m : Model) (f : Function) : List Function :=
  m.functions.filter fun g => f.startLine < g.startLine && g.endLine ≤ f.endLine

def sighting? (f : Function) (l : Line) : Option Sighting :=
  (operation? names l.code.toList).map fun o =>
    { line := l.number
      message := "Unchecked '" ++ o.operator ++ "' in " ++ f.qualifiedName
      symbol := some f.qualifiedName
      severity := if o.operands.any (isValueLike names) then some .high else none
      evidence := [.record [("snippet", .str l.trimmed), ("operator", .str o.operator)]]
      snippet := l.raw }

/-- What is seen in a unit: each line of a function is looked at once, with its innermost function. -/
def sightings (setup : RuleSetup) (unit : ScanUnit) (_ : Index) :
    Except ItemsError (List Sighting) := do
  let names := valueNames ++ (← optionList setup.options "value_names")
  let m := unit.model
  return (m.functions.filter (!m.isTestCode ·)).flatMap fun f =>
    let nested := nestedIn m f
    (m.bodyLines f).filterMap fun l =>
      if nested.any (·.containsLine l.number) then none else sighting? names f l

def detector : Detector where
  implementation := "UncheckedArithmeticRule"
  sightings := sightings
  info :=
    { id := "SOL-001"
      title := "Unchecked arithmetic"
      defaultSeverity := .medium
      description := "Integer arithmetic in release builds of Solana programs wraps silently on "
        ++ "overflow. Balances and amounts computed this way can be manipulated."
      remediation := "Use checked_add/checked_sub/checked_mul and return an error on None." }

end ContractAudit.Arithmetic
