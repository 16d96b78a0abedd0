import ContractAudit.Decimal.Reading
import ContractAudit.Finding.Location
import ContractAudit.Text.Case
import ContractAudit.Text.Pattern

/-! # Executions -/

namespace ContractAudit

structure Panic where
  location : Location
  message : String
deriving DecidableEq, Repr

namespace Panic

open Text Text.Pattern

def place : Pattern :=
  mark 1 (some1 (one fun c => !isBlank c && c != ':' && c != '\'')) ++ char ':'
    ++ mark 2 (some1 digit) ++ char ':' ++ some1 digit

def placeFirst : Pattern :=
  lit "panicked at " ++ place ++ char ':' ++ blanks ++ char '\n' ++ mark 3 (many inLine)

def messageFirst : Pattern :=
  lit "panicked at '" ++ mark 3 (few inLine) ++ lit "', " ++ place

def ofMatch (m : Match) : Except Decimal.TooManyDigits Panic := do
  let line ← Decimal.natOfDigits (m.group 2)
  return ⟨.ofLines (m.groupText 1) (some line) none none, String.ofList (trim (m.group 3))⟩

def parse (text : List Char) : Except Decimal.TooManyDigits (Option Panic) :=
  match placeFirst.search text <|> messageFirst.search text with
  | none => .ok none
  | some m => (ofMatch m).map some

end Panic

inductive ExecutionStatus where
  | ok
  | violation
  | crash
deriving DecidableEq, Repr

def ExecutionStatus.name : ExecutionStatus → String
  | ok => "ok"
  | violation => "violation"
  | crash => "crash"

structure ExecutionResult where
  status : ExecutionStatus := .ok
  message : String := ""
  location : Option Location := none
  coverage : List Int := []
deriving DecidableEq, Repr

namespace ExecutionResult

def failed (r : ExecutionResult) : Bool := r.status != .ok

def toValue (r : ExecutionResult) : Value :=
  .record [("status", .str r.status.name), ("message", .str r.message), ("failed", .bool r.failed),
    ("location", (r.location.map Location.toValue).getD .null),
    ("coverage", .list ((r.coverage.eraseDups.mergeSort (· ≤ ·)).map .int))]

end ExecutionResult

/-- How a program ended and what it wrote. A negative code is the number of a signal. -/
structure ProgramExit where
  code : Int
  stdout : List Char := []
  stderr : List Char := []

namespace ProgramExit

open Text Text.Pattern
variable (e : ProgramExit)

def coverageLine : Pattern :=
  lineStart ++ lit "coverage:" ++ blanks ++ mark 1 (many inLine) ++ lineEnd

/-- What was covered, as the first line says that tells of it. -/
def coverage : Except Decimal.TooManyDigits (List Int) :=
  match coverageLine.search e.stdout with
  | none => .ok []
  | some m => ((some1 digit).findAll (m.group 1)).mapM fun d => do
    return ((← Decimal.natOfDigits ((m.group 1).drop d.start |>.take (d.finish - d.start)) : Nat) : Int)

def invariantWord : Pattern :=
  wordEdge ++ ("invariant".toList.foldr (fun c p => one (sameLetter c) ++ p) empty) ++ wordEdge

def output : List Char := if e.stderr.isEmpty then e.stdout else e.stderr

def outputLines (e : ProgramExit) : List (List Char) :=
  ((Text.outputLines e.output).map trim).filter (!·.isEmpty)

def ended : String :=
  if e.code < 0 then "killed by signal " ++ toString (-e.code) else "exit status " ++ toString e.code

def crashMessage : String :=
  match e.outputLines.getLast? with
  | some detail => e.ended ++ ": " ++ String.ofList detail
  | none => e.ended

def invariantLine? : Option (List Char) :=
  if invariantWord.occursIn e.output then e.outputLines.find? invariantWord.occursIn else none

def classify : Except Decimal.TooManyDigits ExecutionResult := do
  let coverage ← e.coverage
  if e.code = 0 then return { coverage }
  match ← Panic.parse e.output with
  | some p =>
    return { status := .violation, message := if p.message.isEmpty then "panic" else p.message,
             location := some p.location, coverage }
  | none => match e.invariantLine? with
    | some line => return { status := .violation, message := String.ofList line, coverage }
    | none => return { status := .crash, message := e.crashMessage, coverage }

end ProgramExit

end ContractAudit
