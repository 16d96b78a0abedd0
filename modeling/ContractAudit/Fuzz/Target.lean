import ContractAudit.Fuzz.Execution
import ContractAudit.Value.Integer

/-! # Clocks and targets -/

namespace ContractAudit

class Clock (τ : Type) where
  /-- The moment at which a campaign begins; as a span, no time at all. -/
  start : τ
  after : τ → τ → τ
  before : τ → τ → Bool

instance : Clock Float where
  start := 0
  after := (· + ·)
  before a b := a < b

instance : Clock Nat where
  start := 0
  after := (· + ·)
  before a b := decide (a < b)

namespace Clock

variable {τ : Type} [Clock τ]

def later (t d : τ) : τ := if before d start then t else after t d

end Clock

inductive Obstacle where
  /-- It could not be reached; `target` is the name that the report of it gives. -/
  | unreachable (target reason : String)
  | timeout (message : String := "")
  | fault (f : Fault)
deriving DecidableEq, Repr

namespace Obstacle

def kind : Obstacle → String
  | unreachable _ _ => "TargetUnreachable"
  | timeout _ => "TimeoutError"
  | fault f => f.kind

def message : Obstacle → String
  | unreachable target reason => "target '" ++ target ++ "' unreachable: " ++ reason
  | timeout message => message
  | fault f => f.message

def ofFault (f : Fault) : Obstacle :=
  if f.kind == "TimeoutError" then timeout f.message else fault f

end Obstacle

/-- Something that takes time: how long, or forever, and what comes of it. -/
structure Timed (τ α : Type) where
  duration : Option τ
  outcome : Except Obstacle α

namespace Timed

variable {τ α : Type} [Clock τ]

def now (outcome : Except Obstacle α) : Timed τ α := ⟨some Clock.start, outcome⟩

/-- The same within a limit: what is not over before the limit ends there, without result. -/
def within (t : Timed τ α) : (limit : Option τ) → Timed τ α
  | none => t
  | some l =>
    if t.duration.any (Clock.before · l) then t else ⟨some l, .error (.timeout)⟩

end Timed

structure Target (τ : Type) where
  name : String
  implementation : String
  sourcePath : Option String := none
  entryPoint : String := name
  prepare : Timed τ Unit
  /-- What happens on an input; calls are counted over the whole campaign, from zero. -/
  react : (call : Nat) → (input : List UInt8) → Timed τ ExecutionResult

namespace Target

variable {τ : Type}

def location (t : Target τ) : Location where
  path := match t.sourcePath.filter (!·.isEmpty) with
    | some p => p
    | none => t.name
  lines := none
  symbol := some t.entryPoint

def shown (t : Target τ) : String := t.implementation ++ "(" ++ Text.quoted t.name ++ ")"

def entryPointOr (name : String) (given : Option String) : String :=
  (given.filter (!·.isEmpty)).getD name

end Target

def violationKinds : List String := ["InvariantViolation", "AssertionError"]

def Fault.described (f : Fault) : String := f.kind ++ ": " ++ f.message

def outcomeOfFault (f : Fault) : Except Obstacle ExecutionResult :=
  if violationKinds.contains f.kind then
    .ok { status := .violation, message := if f.message.isEmpty then f.kind else f.message }
  else if f.kind == "TimeoutError" then .error (.timeout f.message)
  else .ok { status := .crash, message := f.described }

def coverageOfValue : Value → Except IntegerError (List Int)
  | .list items | .tuple items => items.mapM Value.toInteger
  | .set items => items.mapM fun s => (Value.scalar s).toInteger
  | _ => .ok []

def outcomeOfValue (v : Value) : Except Obstacle ExecutionResult :=
  match coverageOfValue v with
  | .ok coverage => .ok { coverage }
  | .error e => .error (.fault e.fault)

inductive Condition where
  | always
  | minSize (n : Int)
  | startsWith (bytes : List UInt8)
  /-- The first eight bytes, the lowest first, are a number above a bound. -/
  | above (bound : Int)
  | call (n : Int)

def numberOfBytes (bytes : List UInt8) : Nat := bytes.foldr (fun b n => b.toNat + 256 * n) 0

namespace Condition

def holds (call : Nat) (input : List UInt8) : Condition → Bool
  | always => true
  | minSize n => n ≤ (input.length : Int)
  | startsWith bytes => bytes.isPrefixOf input
  | above bound => 8 ≤ input.length && bound < (numberOfBytes (input.take 8) : Int)
  | .call n => n == (call : Int)

end Condition

inductive Act where
  | fault (f : Fault)
  | unreachable (target reason : String)
  | value (v : Value)

structure Action (τ : Type) where
  hangs : Bool := false
  duration : Option τ := none
  act : Act := .value .null

namespace Act

def execution : Act → Except Obstacle ExecutionResult
  | fault f => outcomeOfFault f
  | unreachable target reason => .error (.unreachable target reason)
  | value v => outcomeOfValue v

def preparation : Act → Except Obstacle Unit
  | fault f => .error (.ofFault f)
  | unreachable target reason => .error (.unreachable target reason)
  | value _ => .ok ()

end Act

structure Script (τ : Type) where
  name : String
  sourcePath : Option String := none
  entryPoint : Option String := none
  /-- How long a case takes unless it says so itself. -/
  duration : τ
  /-- Everything happens at once, whatever the cases say. -/
  atOnce : Bool := false
  cases : List (Condition × Action τ) := []
  prepare : Option (Action τ) := none

namespace Script

variable {τ : Type} [Clock τ]

def span (s : Script τ) (a : Action τ) : Option τ :=
  if a.hangs then none else some (a.duration.getD s.duration)

def actionFor (s : Script τ) (call : Nat) (input : List UInt8) : Action τ :=
  ((s.cases.find? fun c => c.1.holds call input).map (·.2)).getD {}

def react (s : Script τ) (call : Nat) (input : List UInt8) : Timed τ ExecutionResult :=
  let a := s.actionFor call input
  ⟨if s.atOnce then some Clock.start else s.span a, a.act.execution⟩

def target (s : Script τ) : Target τ where
  name := s.name
  implementation := "CallableTarget"
  sourcePath := s.sourcePath
  entryPoint := Target.entryPointOr s.name s.entryPoint
  prepare := match s.prepare with
    | none => .now (.ok ())
    | some a => ⟨s.span a, a.act.preparation⟩
  react := s.react

end Script

end ContractAudit
