import ContractAudit.Source.Unit
import ContractAudit.Text.Glob
import ContractAudit.Text.Utf8

/-! # Finding sources and harnesses -/

namespace ContractAudit

def File.text (f : File) : String :=
  String.ofList (Text.unifyNewlines (Text.decodeReplacing f.bytes))

namespace Discovery

def skippedDirectories : List String :=
  ["target", "node_modules", ".git", ".anchor", "test-ledger", "__pycache__"]

def isEntered (name : String) : Bool :=
  !skippedDirectories.contains name && !name.toList.head?.any (· == '.')

def dropSlashes (s : String) : String :=
  String.ofList (s.toList.reverse.dropWhile (· == '/')).reverse

variable (patterns : List String)

/-- A relative path matches one of the patterns, or lies below one taken as a directory. -/
def isIgnored (relative : String) : Bool :=
  patterns.any fun p => Text.globMatch p relative
    || (dropSlashes p ++ "/").toList.isPrefixOf relative.toList

def isWanted (parts : List String) : Bool :=
  isSourcePath ⟨"", parts⟩ && !isIgnored patterns ("/".intercalate parts)

def sourcesBelow (dir : Node) : List (List String × File) :=
  (dir.files isEntered).filter fun e => isWanted patterns e.1

def sources (t : Node) (root : FilePath) (patterns : List String) : List (FilePath × File) :=
  match t.find root with
  | .ok (.file f) => if isSourcePath root then [(root, f)] else []
  | .ok (.dir es) =>
    (sourcesBelow patterns (.dir es)).map fun (parts, f) => (⟨root.root, root.parts ++ parts⟩, f)
  | .error _ => []

def unitOf (path : FilePath) (base : Option FilePath) (f : File) : ScanUnit :=
  .of ((base.bind path.relativeTo?).getD path).toText f.text none

def units (t : Node) (root : FilePath) (patterns : List String) : List ScanUnit :=
  let base := if t.isFile root then root.parent else root
  (sources t root patterns).map fun (path, f) => unitOf path (some base) f

def harnessDirectories : List String :=
  ["fuzz/target/release", "fuzz/target/debug", "target/release", "target/debug", "fuzz/bin", "."]

def isHarnessName (wanted : List String) (name : String) : Bool :=
  if wanted.isEmpty then "fuzz_".toList.isPrefixOf name.toList else wanted.contains name

def harnessesIn (t : Node) (wanted : List String) (dir : FilePath) : List FilePath :=
  if t.isDir dir then
    ((t.list dir).map dir.child).filter fun p => t.isExecutable p && isHarnessName wanted p.name
  else []

def firstOfName (paths : List FilePath) : List FilePath :=
  paths.eraseDupsBy fun a b => a.name == b.name

/-- The harnesses at a path: the path itself if it can be run, or those in the usual places. -/
def harnesses (t : Node) (root : FilePath) (wanted : List String) : List FilePath :=
  if t.isFile root then if t.isExecutable root then [root] else []
  else firstOfName (harnessDirectories.flatMap fun d => harnessesIn t wanted (root.child d))

end Discovery

end ContractAudit
