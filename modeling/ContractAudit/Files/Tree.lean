import ContractAudit.Finding.Location
import ContractAudit.Text.Quoted

/-! # Paths and trees of files -/

namespace ContractAudit

structure FilePath where
  root : String
  parts : List String
deriving DecidableEq, Repr

namespace FilePath
variable (p : FilePath)

def ofString (s : String) : FilePath where
  root := String.ofList (List.replicate (rootSlashes s.toList) '/')
  parts := ((Text.splitOnChar '/' s.toList).filter fun p => !p.isEmpty && p != ['.']).map String.ofList

def toText : String :=
  if p.root.isEmpty && p.parts.isEmpty then "." else p.root ++ "/".intercalate p.parts

def join (p q : FilePath) : FilePath :=
  if q.root.isEmpty then ⟨p.root, p.parts ++ q.parts⟩ else q

def child (name : String) : FilePath := p.join (ofString name)

def inside (name : String) : FilePath := ⟨p.root, p.parts ++ [name]⟩

def parent : FilePath := ⟨p.root, p.parts.dropLast⟩

def name : String := p.parts.getLast?.getD ""

/-- Where the suffix of a file name begins: the last dot, unless it is the first or the last
    character. -/
def suffixStart? (name : List Char) : Option Nat :=
  match name.reverse.findIdx? (· == '.') with
  | none => none
  | some k =>
    let i := name.length - 1 - k
    if 0 < i && 0 < k then some i else none

def suffix : String :=
  match suffixStart? p.name.toList with
  | some i => String.ofList (p.name.toList.drop i)
  | none => ""

def stem : String :=
  match suffixStart? p.name.toList with
  | some i => String.ofList (p.name.toList.take i)
  | none => p.name

def relativeTo? (p base : FilePath) : Option FilePath :=
  if p.root == base.root && base.parts.isPrefixOf p.parts then
    some ⟨"", p.parts.drop base.parts.length⟩
  else none

end FilePath

structure File where
  bytes : List UInt8
  executable : Bool := false
deriving DecidableEq, Repr

inductive Node where
  | file (f : File)
  | dir (entries : List (String × Node))

inductive FileCause where
  | absent
  | notDirectory
  | isDirectory
  | taken
  | denied
deriving DecidableEq, Repr

structure FileError where
  cause : FileCause
  path : FilePath
deriving DecidableEq, Repr

def FileCause.message : FileCause → String
  | .absent => "[Errno 2] No such file or directory"
  | .notDirectory => "[Errno 20] Not a directory"
  | .isDirectory => "[Errno 21] Is a directory"
  | .taken => "[Errno 17] File exists"
  | .denied => "[Errno 13] Permission denied"

def FileError.message (e : FileError) : String :=
  e.cause.message ++ ": " ++ Text.quoted e.path.toText

namespace Node
variable (t : Node) (p : FilePath)

def empty : Node := .dir []

instance : Inhabited Node := ⟨empty⟩

def entries : Node → List (String × Node)
  | .file _ => []
  | .dir es => es

def names (n : Node) : List String := (n.entries.map (·.1)).mergeSort (· ≤ ·)

def descend (n : Node) (above : List Node) : List String → Except FileCause Node
  | [] => .ok n
  | p :: ps => match n with
    | .file _ => .error .notDirectory
    | .dir es =>
      if p == ".." then match above with
        | [] => .error .absent
        | a :: as => descend a as ps
      else match es.lookup p with
        | none => .error .absent
        | some m => descend m (n :: above) ps

/-- What a path leads to. Only the tree itself can be reached, so a path from elsewhere leads
    nowhere. -/
def find : Except FileCause Node :=
  if p.root.isEmpty then t.descend [] p.parts else .error .absent

def isFile : Bool :=
  match t.find p with
  | .ok (.file _) => true
  | _ => false

def isDir : Bool :=
  match t.find p with
  | .ok (.dir _) => true
  | _ => false

def exists? : Bool :=
  match t.find p with
  | .ok _ => true
  | .error _ => false

def isExecutable : Bool :=
  match t.find p with
  | .ok (.file f) => f.executable
  | _ => false

def read : Except FileError File :=
  match t.find p with
  | .ok (.file f) => .ok f
  | .ok (.dir _) => .error ⟨.isDirectory, p⟩
  | .error c => .error ⟨c, p⟩

def list : List String :=
  match t.find p with
  | .ok n => n.names
  | .error _ => []

def alterEntry (name : String) (change : Node → Node) : List (String × Node) → List (String × Node)
  | [] => []
  | e :: es => if e.1 == name then (e.1, change e.2) :: es else e :: alterEntry name change es

def setEntry (es : List (String × Node)) (name : String) (n : Node) : List (String × Node) :=
  if es.any (·.1 == name) then alterEntry name (fun _ => n) es else es ++ [(name, n)]

def put (n : Node) : List String → Node → Node
  | [], _ => n
  | p :: ps, t => .dir (setEntry t.entries p (put n ps ((t.entries.lookup p).getD empty)))

def erase : List String → Node → Node
  | [], t => t
  | _, .file f => .file f
  | [p], .dir es => .dir (es.filter (·.1 != p))
  | p :: ps, .dir es => .dir (alterEntry p (erase ps) es)

/-- The components of a path with each `..` taking back the one before. -/
def place : List String :=
  p.parts.foldl (fun done c => if c == ".." then done.dropLast else done ++ [c]) []

/-- A change of the tree came to a stop: why, and the tree as it was left. -/
structure Stop where
  error : FileError
  tree : Node

/-- The tree with a directory at a path, in a directory that is there. Nothing can be made outside of
    the tree. -/
def makeDir : Except Stop Node :=
  match t.find p with
  | .ok (.dir _) => .ok t
  | .ok (.file _) => .error ⟨⟨.taken, p⟩, t⟩
  | .error .notDirectory => .error ⟨⟨.notDirectory, p⟩, t⟩
  | .error _ => if p.name == ".." then .error ⟨⟨.denied, p⟩, t⟩ else .ok (put empty (place p) t)

def makeDirsBack (t : Node) : List String → Except Stop Node
  | [] => t.makeDir ⟨"", []⟩
  | c :: above =>
    let p : FilePath := ⟨"", (c :: above).reverse⟩
    match t.find p with
    | .ok _ | .error .notDirectory => t.makeDir p
    | .error _ => do (← t.makeDirsBack above).makeDir p

/-- The tree with a directory at a path, and those above it, or where that came to a stop. -/
def tryDirs : Except Stop Node :=
  if p.root.isEmpty then t.makeDirsBack p.parts.reverse else .error ⟨⟨.denied, p⟩, t⟩

def makeDirs : Except FileError Node := (t.tryDirs p).mapError (·.error)

def left : Except Stop Node → Node
  | .ok t => t
  | .error stop => stop.tree

/-- The tree with a file written at a path, in a directory that is there. What lies above the tree is a
    directory. -/
def write (f : File) : Except FileError Node :=
  match t.find p with
  | .ok (.dir _) => .error ⟨.isDirectory, p⟩
  | .ok (.file old) => .ok (put (.file { f with executable := old.executable }) (place p) t)
  | .error _ => match t.find p.parent with
    | .ok (.dir _) =>
      if p.name == ".." then .error ⟨.isDirectory, p⟩ else .ok (put (.file f) (place p) t)
    | .ok (.file _) => .error ⟨.notDirectory, p⟩
    | .error c => .error ⟨c, p⟩

/-- The tree with a copy of a file at a path; if that is a directory, the copy goes into it. -/
def copy (name : String) (f : File) (p : FilePath) : Except FileError Node :=
  let p := if t.isDir p then p.inside name else p
  match t.find p with
  | .ok (.file _) => .ok (put (.file f) (place p) t)
  | _ => t.write p f

def remove : Node := erase (place p) t

/-- What a directory holds under a name: a file, or the files below a directory. -/
inductive Holding where
  | file (f : File)
  | below (files : List (List String × File))

/-- The files of a directory, those in it before those below it, each part by name. -/
def Holding.gather (held : List (String × Holding)) : List (List String × File) :=
  let held := held.mergeSort fun a b => a.1 ≤ b.1
  (held.filterMap fun (name, h) => match h with
    | .file f => some ([name], f)
    | .below _ => none)
  ++ held.flatMap fun (name, h) => match h with
    | .file _ => []
    | .below files => files.map fun (p, f) => (name :: p, f)

mutual

def files (enter : String → Bool) : Node → List (List String × File)
  | .file _ => []
  | .dir es => Holding.gather (holdings enter es)
termination_by structural n => n

def holdings (enter : String → Bool) : List (String × Node) → List (String × Holding)
  | [] => []
  | e :: es => holding enter e ++ holdings enter es
termination_by structural es => es

def holding (enter : String → Bool) : String × Node → List (String × Holding)
  | (name, n) => match n with
    | .file f => [(name, .file f)]
    | .dir _ => if enter name then [(name, .below (files enter n))] else []
termination_by structural e => e

end

end Node

end ContractAudit
