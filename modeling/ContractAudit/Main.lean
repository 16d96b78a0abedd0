import ContractAudit.CommandLine.Session
import ContractAudit.Description.Plugin
import Std.Time.DateTime.Timestamp

/-! # The program -/

open ContractAudit ContractAudit.CommandLine

namespace ContractAudit.Program

def homeName : String := "~"

def userDirectory : String := ".solsec"

/-- A file as it is read. Its permissions cannot be read here: what can be executed is what describes a
    harness, since `Description.programs` runs nothing else. -/
def fileOf (bytes : ByteArray) : File where
  bytes := bytes.toList
  executable := (Description.markedValue? Description.harnessMark bytes.toList).isSome

/-- The files of a directory and below. Links are not followed, and what cannot be read is left
    out. -/
partial def readEntries (entries : Array IO.FS.DirEntry) : IO (List (String × Node)) := do
  let mut found := []
  for e in entries do
    try
      match (← e.path.symlinkMetadata).type with
      | .dir => found := (e.fileName, Node.dir (← readEntries (← e.path.readDir))) :: found
      | .file => found := (e.fileName, Node.file (fileOf (← IO.FS.readBinFile e.path))) :: found
      | _ => pure ()
    catch _ => pure ()
  return found.reverse

/-- The files that the program sees: those below the current directory, and those of the user. -/
def readTree (home : String) : IO Node := do
  let here ← IO.currentDir
  let files ← readEntries (← here.readDir)
  let user := here / home / userDirectory
  let plugins ← if ← user.isDir then readEntries (← user.readDir) else pure []
  return .dir (files ++ [(homeName, .dir [(userDirectory, .dir plugins)])])

def realPath (home : String) : List String → String
  | p :: ps => if p == homeName then "/".intercalate (home :: ps) else "/".intercalate (p :: ps)
  | [] => "."

def writeTree (home : String) (before after : Node) : IO Unit := do
  let all := fun (_ : String) => true
  for (parts, f) in after.files all do
    match before.read ⟨"", parts⟩ with
    | .ok old => if old.bytes != f.bytes then write parts f
    | .error _ => write parts f
  for (parts, _) in before.files all do
    if !after.isFile ⟨"", parts⟩ then IO.FS.removeFile (realPath home parts)
where
  write (parts : List String) (f : File) : IO Unit := do
    if 1 < parts.length then IO.FS.createDirAll (realPath home parts.dropLast)
    IO.FS.writeBinFile (realPath home parts) ⟨f.bytes.toArray⟩

def now : IO Moment := do
  let t ← Std.Time.Timestamp.now
  return .ofMicroseconds (t.toNanosecondsSinceUnixEpoch.val.toNat / 1000)

def idOf (bytes : List UInt8) : String :=
  let set := bytes.mapIdx fun i b =>
    if i = 6 then b &&& 0x0f ||| 0x40 else if i = 8 then b &&& 0x3f ||| 0x80 else b
  let hex := (Hash.hex set).toList
  let part (start count : Nat) := String.ofList ((hex.drop start).take count)
  "-".intercalate [part 0 8, part 8 4, part 12 4, part 16 4, part 20 12]

def machine : IO (Machine Float) := do
  let environment ← ToolSettings.variableNames.filterMapM fun name => do
    return (← IO.getEnv name).map fun v => (name, v)
  let bytes ← IO.getRandomBytes 16
  return {
    programs := Description.programs
    loader := Description.pluginLoader
    span := Amount.toFloat
    environment
    home := ⟨"", [homeName]⟩
    sessionId := idOf bytes.toList
    moment := ← now }

def tell (m : Machine Float) (s : Trace) : IO Unit := do
  IO.print s.stdout
  for l in s.log do
    IO.eprintln (m.moment.stamp ++ " [" ++ l.level.name ++ "] " ++ toolName ++ ": " ++ l.message)
  match s.audit with
  | some log => IO.eprint log.consoleText
  | none => pure ()

def runWords (words : List String) : IO UInt32 := do
  let m ← machine
  let home := (← IO.getEnv "HOME").getD "."
  let tree ← readTree home
  let r := CommandLine.run m tree words
  tell m r.trace
  writeTree home tree r.trace.tree
  match r.ending with
  | .status n => return n.toUInt32
  | .halted h =>
    if h.status != 0 then IO.eprintln (toolName ++ ": error: " ++ h.message)
    return h.status.toUInt32
  | .failed e =>
    IO.eprintln (toolName ++ ": " ++ e.message)
    return 1

end ContractAudit.Program

def main (args : List String) : IO UInt32 := ContractAudit.Program.runWords args
