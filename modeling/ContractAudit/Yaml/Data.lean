import ContractAudit.Yaml.Node

/-! # What a YAML text stands for -/

namespace ContractAudit.Yaml

def Node.tag : Node → Tag
  | .scalar _ t _ | .sequence _ t _ | .mapping _ t _ => t

/-- The entries that a merge key brings in, in the order in which they are laid down. -/
def mergedEntries : Node → Except YamlError (List (Node × Node))
  | .mapping _ _ entries => .ok entries
  | .sequence _ _ items => do
    let maps ← items.mapM fun n => match n with
      | .mapping _ _ entries => Except.ok entries
      | _ => .error .key
    .ok maps.reverse.flatten
  | .scalar _ _ _ => .error .key

mutual

/-- The node with all that merge keys bring in, before its own entries, so that those replace it. Only
    maps and sets have merge keys; the map that stands for a `pair` has none. -/
def Node.merged (pair : Bool) : Node → Except YamlError Node
  | .scalar i t s => .ok (.scalar i t s)
  | .sequence i t items => do return .sequence i t (← mergeItems (t == .pairs) items)
  | .mapping i t entries => do
    if pair then return .mapping i t (← mergeParts entries)
    else if t == .map || t == .set then
      let (brought, own) ← mergeEntries entries
      return .mapping i t (brought ++ own)
    else return .mapping i t entries

def mergeItems (pairs : Bool) : List Node → Except YamlError (List Node)
  | [] => .ok []
  | n :: s => do return (← n.merged pairs) :: (← mergeItems pairs s)

def mergeParts : List (Node × Node) → Except YamlError (List (Node × Node))
  | [] => .ok []
  | (k, v) :: s => do return (← k.merged false, ← v.merged false) :: (← mergeParts s)

def mergeEntries : List (Node × Node) → Except YamlError (List (Node × Node) × List (Node × Node))
  | [] => .ok ([], [])
  | (k, v) :: s => do
    let k ← k.merged false
    let v ← v.merged false
    let (brought, own) ← mergeEntries s
    if k.tag == .merge then return ((← mergedEntries v) ++ brought, own)
    else return (brought, (k, v) :: own)

end

/-- What a document stands for. Lists, maps, sets and timestamps with one number are one and the
    same; those without a number occur once. -/
inductive Data where
  | scalar (s : Scalar)
  | timestamp (id : Option Nat) (t : Timestamp)
  | list (id : Option Nat) (items : List Data)
  | pair (first second : Data)
  | set (id : Option Nat) (items : List Data)
  | map (id : Option Nat) (entries : List (Data × Data))

namespace Data

instance : Inhabited Data := ⟨.scalar .null⟩

def id? : Data → Option Nat
  | .scalar _ | .pair _ _ => none
  | .timestamp i _ | .list i _ | .set i _ | .map i _ => i

def scalar? : Data → Option Scalar
  | .scalar s => some s
  | .timestamp _ t => some (.timestamp t)
  | _ => none

def sameKey (a b : Data) : Bool :=
  match a.scalar?, b.scalar? with
  | some x, some y => x.sameKey y
  | _, _ => false

def insert (entries : List (Data × Data)) (k v : Data) : List (Data × Data) :=
  if entries.any fun e => e.1.sameKey k then
    entries.map fun e => if e.1.sameKey k then (e.1, v) else e
  else entries ++ [(k, v)]

def distinct (entries : List (Data × Data)) : List (Data × Data) :=
  entries.foldl (fun m e => insert m e.1 e.2) []

def record (entries : List (String × Data)) : Data :=
  .map none (entries.map fun (k, v) => (.scalar (.str k), v))

mutual

def toValue : Data → Value
  | .scalar s => .scalar s
  | .timestamp _ t => .scalar (.timestamp t)
  | .list _ items => .list (itemValues items)
  | .pair a b => .tuple [a.toValue, b.toValue]
  | .set _ items => .set (items.filterMap scalar?)
  | .map _ entries => .map (entryValues entries)

def itemValues : List Data → List Value
  | [] => []
  | d :: s => d.toValue :: itemValues s

def entryValues : List (Data × Data) → List (Scalar × Value)
  | [] => []
  | (k, v) :: s => (k.scalar?.getD .null, v.toValue) :: entryValues s

end

end Data

def scalarData (id : Nat) (tag : Tag) (text : String) : Except YamlError Data := do
  match ← scalarOf tag text with
  | .timestamp t => return .timestamp (some id) t
  | s => return .scalar s

/-- A key of a map: a scalar, and an equals sign stands for itself. -/
def keyData : Node → Except YamlError Data
  | .scalar i tag text => if tag == .equals then .ok (.scalar (.str text)) else scalarData i tag text
  | _ => .error .key

mutual

/-- The text of a scalar; that of a map is at its equals sign. -/
def Node.text? : Node → Option String
  | .scalar _ _ text => some text
  | .sequence _ _ _ => none
  | .mapping _ _ entries => markedText? entries

def markedText? : List (Node × Node) → Option String
  | [] => none
  | (k, v) :: s => if k.tag == .equals then v.text? else markedText? s

end

mutual

def Node.data : Node → Except YamlError Data
  | .scalar i tag text => scalarData i tag text
  | .sequence i tag items =>
    if tag == .seq then do return .list (some i) (← itemsData items)
    else if tag == .pairs then do return .list (some i) (← pairsData items)
    else .error .content
  | .mapping i tag entries =>
    if tag == .map then do return .map (some i) (Data.distinct (← entriesData entries))
    else if tag == .set then do
      return .set (some i) ((Data.distinct (← entriesData entries)).map (·.1))
    else match markedText? entries with
      | some text => scalarData i tag text
      | none => .error .content

def itemsData : List Node → Except YamlError (List Data)
  | [] => .ok []
  | n :: s => do return (← n.data) :: (← itemsData s)

def pairsData : List Node → Except YamlError (List Data)
  | [] => .ok []
  | .mapping _ _ [(k, v)] :: s => do
    let key ← k.data
    let value ← v.data
    return .pair key value :: (← pairsData s)
  | _ :: _ => .error .content

def entriesData : List (Node × Node) → Except YamlError (List (Data × Data))
  | [] => .ok []
  | (k, v) :: s => do
    let key ← keyData k
    let value ← v.data
    return (key, value) :: (← entriesData s)

end

/-- What a text stands for: null if there is no document, and an error if there are several. -/
def parse (text : String) : Except YamlError Data := do
  match ← readDocument text with
  | none => return .scalar .null
  | some n => (← n.merged false).data

end ContractAudit.Yaml
