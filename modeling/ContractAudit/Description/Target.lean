import ContractAudit.Description.Reader
import ContractAudit.Fuzz.Command
import ContractAudit.Fuzz.Strategy
import ContractAudit.Value.Json
import ContractAudit.Value.JsonReader

/-! # Descriptions of files and targets -/

namespace ContractAudit.Description
variable (v : Value)

def isHexSpace (c : Char) : Bool := c == ' ' || 9 ≤ c.toNat && c.toNat ≤ 13

def bytesOfHex (pos : Nat) : List Char → Except Nat (List UInt8)
  | [] => .ok []
  | a :: s =>
    if isHexSpace a then bytesOfHex (pos + 1) s
    else match Json.hexValue? a, s with
      | none, _ => .error pos
      | some _, [] => .error (pos + 1)
      | some a, b :: s => match Json.hexValue? b with
        | none => .error (pos + 1)
        | some b => (bytesOfHex (pos + 2) s).map ((a * 16 + b).toUInt8 :: ·)

/-- The bytes of a text of hexadecimal digits. A character outside of ASCII is found first. -/
def readHex (s : List Char) : Except Nat (List UInt8) :=
  match s.findIdx? (128 ≤ ·.toNat) with
  | some pos => .error pos
  | none => bytesOfHex 0 s

def asBytes : Value → Reading (List UInt8)
  | .str s => (readHex s.toList).mapError fun pos =>
      ⟨"ValueError", "non-hexadecimal number found in fromhex() arg at position " ++ toString pos⟩
  | v => .error ⟨"TypeError",
      "fromhex() argument must be str, not " ++ if v.isNull then "None" else v.kindName⟩

def bytesList (k : String) : Reading (List (List UInt8)) := listOf asBytes v k

def harnessMark : String := "harness:"

def pluginMark : String := "plugin:"

def markedBytes (mark : String) (v : Value) : List UInt8 := Hash.utf8 (mark ++ Json.canonical v)

def markedValue? (mark : String) (bytes : List UInt8) : Option Value :=
  let text := Text.decodeReplacing bytes
  if mark.toList.isPrefixOf text then Json.parse? (String.ofList (text.drop mark.length)) else none

def nodeOf : Reading Node := do
  match v with
  | .str s => return .file { bytes := Hash.utf8 s }
  | v =>
    let executable := boolOf v "x"
    if let some s := field? v "text" then return .file ⟨Hash.utf8 (← asString s), executable⟩
    if let some h := field? v "hex" then return .file ⟨← asBytes h, executable⟩
    if (field? v "dir").isSome then return .empty
    if let some p := field? v "plugin" then
      return .file ⟨markedBytes pluginMark p, executable⟩
    if let some h := field? v "harness" then
      return .file ⟨markedBytes harnessMark h, true⟩
    bad "file content"

def treeOf : Reading Node := do
  (← readD (given? v "files") asEntries []).foldlM (fun t (k, c) => do
    return Node.put (← nodeOf c) (Node.place (FilePath.ofString (Json.keyText k))) t) Node.empty

def pathOf (k : String) : Reading FilePath := do return FilePath.ofString (← str v k)

def pathOpt (k : String) : Reading (Option FilePath) := do
  return (← strOpt v k).map FilePath.ofString

def strategyFault (e : StrategyError) : Fault where
  kind := match e with
    | .sizeRange _ _ => "ValueError"
    | .zeroWidth => "OverflowError"
    | .negativeWidth => "AttributeError"
  message := e.message

/-- A strategy that fails after some executions. -/
def brokenStrategy (name : String) (after : Int) (fault : Fault) : Strategy where
  name := name
  implementation := "BrokenStrategy"
  next := fun _ execution g =>
    if execution < after then .ok (some [UInt8.ofInt execution], g) else .error fault

def strategyOf : Reading Strategy := do
  match ← str v "kind" with
  | "random" =>
    let least ← orderedD v "min_size" "<" 1
    let most ← orderedD v "max_size" "<" 64
    (Strategy.randomBytes least most).mapError strategyFault
  | "mutation" =>
    let most ← orderedD v "max_mutations" ">" 4
    let size ← if (field? v "max_size").isNone then pure (some 4096) else intOpt v "max_size"
    return .mutation most size
  | "boundary" =>
    let widths ← readD (field? v "widths") (fun w => do (← asList w).mapM asInt) Strategy.defaultWidths
    let lead ← readD (given? v "prefix") asBytes []
    (Strategy.boundary widths lead).mapError strategyFault
  | "seed-replay" => return .seedReplay
  | "broken" =>
    return brokenStrategy (← strD v "name" "broken") (← intD v "after" 0) (← faultOf (← field v "raise"))
  | k => bad ("strategy " ++ k)

def strategiesOf : Reading (List Strategy) := do
  match ← field v "strategies" with
  | .str _ => return Strategy.defaults
  | s => (← asList s).mapM strategyOf

def floatOpt (k : String) : Reading (Option Float) := do
  return (← amountOpt v k).map Amount.toFloat

def conditionOf : Reading Condition := do
  if let some n := given? v "min_size" then return .minSize (← asInt n)
  if let some h := given? v "prefix" then return .startsWith (← asBytes h)
  if let some n := given? v "u64_gt" then
    return .above (← (Decimal.readInt? n.plain).elim (bad "u64_gt") .ok)
  if let some n := given? v "nth" then return .call (← asInt n)
  return .always

def actionOf : Reading (Action Float) := do
  let act ← match given? v "raise" with
    | some f => Act.fault <$> faultOf f
    | none => match given? v "unreachable" with
      | some r => do pure (Act.unreachable (← strD v "who" "target") (← asString r))
      | none => pure (Act.value ((field? v "return").getD .null))
  return { hangs := boolOf v "hang", duration := ← floatOpt v "duration", act }

def harnessCase : Reading (Int × ProgramRun Float) := do
  let code ← match ← intOpt v "signal" with
    | some n => pure (-n)
    | none => do pure ((← intD v "code" 0) % 256)
  return (← intD v "min_size" 0, ⟨some (if boolOf v "hang" then 5 else 0), code,
    Hash.utf8 (← strD v "stdout" ""), Hash.utf8 (← strD v "stderr" "")⟩)

def harnessProgram (bytes : List UInt8) : Option (Program Float) :=
  match markedValue? harnessMark bytes with
  | some (.list cases) => match cases.mapM harnessCase with
    | .ok cases => some fun input =>
      ((cases.find? fun c => c.1 ≤ (input.length : Int)).map (·.2)).getD ⟨some 0, 0, [], []⟩
    | .error _ => none
  | _ => none

def programs : Programs Float where
  named
    | "true" => some fun _ => ⟨some 0, 0, [], []⟩
    | "false" => some fun _ => ⟨some 0, 1, [], []⟩
    | _ => none
  ofFile := harnessProgram

def commandOf (command : Value) : Reading Command := do
  let words ← match command with
    | .str s => pure [s]
    | .list l => pure (l.map Value.plain)
    | _ => bad "command"
  match words with
  | [] => .error ⟨"IndexError", "list index out of range"⟩
  | program :: arguments =>
    return { program, arguments, name := ← strOpt v "name", sourcePath := ← strOpt v "source_path",
             entryPoint := ← strOpt v "entry_point" }

def caseOf : Reading (Condition × Action Float) := do
  return (← conditionOf ((given? v "when").getD (.map [])), ← actionOf ((given? v "do").getD (.map [])))

def scriptOf : Reading (Script Float) := do
  let cases ← listOf caseOf v "cases"
  let prepare ← (given? v "prepare").mapM actionOf
  return { name := ← str v "name", sourcePath := ← strOpt v "source_path",
           entryPoint := ← strOpt v "entry_point", duration := (← floatOpt v "duration").getD 0,
           atOnce := boolOf v "sync", cases, prepare }

def targetOf (t : Node) (v : Value) : Reading (Target Float) := do
  match given? v "command" with
  | some c => return (← commandOf v c).target programs t
  | none => return (← scriptOf v).target

end ContractAudit.Description
