import ContractAudit.Files.Tree
import ContractAudit.Fuzz.Target
import ContractAudit.Text.Utf8

/-! # Commands as targets

A harness is a program that reads one input and ends. -/

namespace ContractAudit

structure ProgramRun (τ : Type) where
  duration : Option τ
  code : Int
  stdout : List UInt8 := []
  stderr : List UInt8 := []

abbrev Program (τ : Type) := List UInt8 → ProgramRun τ

structure Programs (τ : Type) where
  named : String → Option (Program τ)
  ofFile : List UInt8 → Option (Program τ)

namespace ProgramRun

variable {τ : Type}

def exit (r : ProgramRun τ) : ProgramExit where
  code := r.code
  stdout := Text.decodeReplacing r.stdout
  stderr := Text.decodeReplacing r.stderr

def execution (r : ProgramRun τ) : Timed τ ExecutionResult where
  duration := r.duration
  outcome := match r.exit.classify with
    | .ok e => .ok e
    | .error e => .error (.fault (IntegerError.tooManyDigits e).fault)

end ProgramRun

structure Command where
  program : String
  arguments : List String := []
  name : Option String := none
  sourcePath : Option String := none
  entryPoint : Option String := none

namespace Command

variable {τ : Type} [Clock τ] (c : Command)

def hasPath : Bool := c.program.toList.contains '/'

def path : FilePath := FilePath.ofString c.program

def namesDirectory : Bool :=
  [[], ['.'], ['.', '.']].contains ((Text.splitOnChar '/' c.program.toList).getLast?.getD [])

def targetName : String := (c.name.filter (!·.isEmpty)).getD c.path.name

def missing? (m : Programs τ) (t : Node) (c : Command) : Option String :=
  if c.hasPath then
    if !t.isFile c.path then some (c.program ++ " does not exist")
    else if !t.isExecutable c.path || c.namesDirectory then some (c.program ++ " is not executable")
    else none
  else if (m.named c.program).isNone then some (c.program ++ " not found on PATH")
  else none

def startError (cause : FileCause) : Obstacle :=
  let message := cause.message ++ ": " ++ Text.quoted c.program
  match cause with
  | .absent | .denied => .unreachable c.targetName message
  | .notDirectory => .fault ⟨"NotADirectoryError", message⟩
  | _ => .fault ⟨"OSError", message⟩

def formatError : Obstacle :=
  .fault ⟨"OSError", "[Errno 8] Exec format error: " ++ Text.quoted c.program⟩

def nullError : Obstacle := .fault ⟨"ValueError", "embedded null byte"⟩

/-- The program of a command. A name is looked for in directories of programs, where the name of a
    directory leads to something that cannot be run. -/
def start (m : Programs τ) (t : Node) (c : Command) : Except Obstacle (Program τ) :=
  if (c.program :: c.arguments).any (·.toList.contains '\x00') then .error nullError
  else if c.hasPath then
    match t.find c.path with
    | .error cause => .error (c.startError cause)
    | .ok (.dir _) => .error (c.startError .denied)
    | .ok (.file f) =>
      if c.namesDirectory then .error (c.startError .notDirectory)
      else if !f.executable then .error (c.startError .denied)
      else match m.ofFile f.bytes with
        | some p => .ok p
        | none => .error c.formatError
  else if c.namesDirectory then .error (c.startError .denied)
  else match m.named c.program with
    | some p => .ok p
    | none => .error (c.startError .absent)

def target (m : Programs τ) (t : Node) (c : Command) : Target τ where
  name := c.targetName
  implementation := "CommandTarget"
  sourcePath := c.sourcePath
  entryPoint := Target.entryPointOr c.targetName c.entryPoint
  prepare := .now (match c.missing? m t with
    | some reason => .error (.unreachable c.targetName reason)
    | none => .ok ())
  react := fun _ input => match c.start m t with
    | .ok p => (p input).execution
    | .error o => .now (.error o)

def harnessSource (name : String) : FilePath :=
  ⟨"", ["fuzz", "fuzz_targets", name ++ ".rs"]⟩

def ofHarness (t : Node) (root : Option FilePath) (path : FilePath) : Command where
  program := path.toText
  name := some path.name
  sourcePath := (root.filter fun r => t.isFile (r.join (harnessSource path.name))).map fun _ =>
    (harnessSource path.name).toText

end Command

end ContractAudit
