import ContractAudit.Yaml.Scalar

/-! # Documents of YAML -/

namespace ContractAudit.Yaml

inductive Node where
  | scalar (id : Nat) (tag : Tag) (text : String)
  | sequence (id : Nat) (tag : Tag) (items : List Node)
  | mapping (id : Nat) (tag : Tag) (entries : List (Node × Node))

/-- The tokens left, what handles and anchors stand for, and the number of the next part. -/
structure Reader where
  tokens : List Token
  handles : List (String × String) := []
  anchors : List (String × Node) := []
  next : Nat := 0

namespace Reader
variable (r : Reader)

def drop : Reader := { r with tokens := r.tokens.tail }

def sees (ts : List Token) : Bool := r.tokens.head?.any ts.contains

def atDirective : Bool := match r.tokens with
  | .directive _ :: _ => true
  | _ => false

def finish (anchor : Option String) (n : Node) : Node × Reader :=
  match anchor with
  | none => (n, { r with next := r.next + 1 })
  | some a => (n, { r with next := r.next + 1, anchors := (a, n) :: r.anchors })

def empty : Node × Reader := r.finish none (.scalar r.next .null "")

/-- A list or map from what is read of it; inside of itself it stands for an empty one. -/
def collect {α : Type} (anchor : Option String) (make : List α → Node) (tokens : List Token)
    (read : Reader → Except YamlError (List α × Reader)) : Except YamlError (Node × Reader) := do
  let (parts, r) ← read (({ r with tokens } : Reader).finish anchor (make [])).2
  return match anchor with
    | none => (make parts, r)
    | some a => (make parts, { r with anchors := (a, make parts) :: r.anchors })

end Reader

inductive Place where
  | flow
  | block
  /-- In a block map, where a list need not be indented. -/
  | entry
deriving DecidableEq

def Reader.tagName (r : Reader) (handle : Option String) (suffix : String) :
    Except YamlError String :=
  match handle with
  | none => .ok suffix
  | some h => match r.handles.lookup h with
    | some start => .ok (start ++ suffix)
    | none => .error .tag

def properties (r : Reader) : Except YamlError (Option String × Option String × Reader) :=
  match r.tokens with
  | .anchor a :: .tag h t :: rest | .tag h t :: .anchor a :: rest => do
    return (some a, some (← r.tagName h t), { r with tokens := rest })
  | .anchor a :: rest => .ok (some a, none, { r with tokens := rest })
  | .tag h t :: rest => do return (none, some (← r.tagName h t), { r with tokens := rest })
  | _ => .ok (none, none, r)

/-- The tag of a list or map that is `usual` without one; a lone mark says nothing. -/
def collectionTag (tag : Option String) (usual : Tag) : Tag :=
  match tag with
  | none | some "!" => usual
  | some name => .ofName name

/-- The tag of a scalar: a quoted one is a text, and a lone mark makes it count as unquoted. -/
def scalarTag (tag : Option String) (text : String) (plain : Bool) : Tag :=
  match tag with
  | none => if plain then plainTag text else .str
  | some "!" => plainTag text
  | some name => .ofName name

mutual

def readNode : (fuel : Nat) → Place → Reader → Except YamlError (Node × Reader)
  | 0, _, _ => .error .layout
  | fuel + 1, place, r => do
    if let .alias name :: rest := r.tokens then
      match r.anchors.lookup name with
      | some n => return (n, { r with tokens := rest })
      | none => throw .alias
    let (anchor, tag, r) ← properties r
    if let some a := anchor then
      if (r.anchors.lookup a).isSome then throw .alias
    let list := Node.sequence r.next (collectionTag tag .seq)
    let map := Node.mapping r.next (collectionTag tag .map)
    match r.tokens with
    | .scalar text plain :: rest =>
      let r := { r with tokens := rest }
      return r.finish anchor (.scalar r.next (scalarTag tag text plain) text)
    | .flowSequence :: rest => r.collect anchor list rest (readFlowItems fuel true)
    | .flowMapping :: rest => r.collect anchor map rest (readFlowEntries fuel true)
    | .blockSequence :: rest =>
      if place == .flow then throw .layout else r.collect anchor list rest (readItems fuel true)
    | .blockMapping :: rest =>
      if place == .flow then throw .layout else r.collect anchor map rest (readBlockEntries fuel)
    | ts =>
      if ts.head? == some .blockEntry && place == .entry then r.collect anchor list ts (readItems fuel false)
      else if anchor.isSome || tag.isSome then
        return r.finish anchor (.scalar r.next (scalarTag tag "" true) "")
      else throw .layout

def readOptional : (fuel : Nat) → Place → List Token → Reader → Except YamlError (Node × Reader)
  | 0, _, _, _ => .error .layout
  | fuel + 1, place, ends, r =>
    if r.tokens.isEmpty || r.sees ends then .ok r.empty else readNode fuel place r

/-- The items of a list of lines. One that need not be indented is not closed by a mark of its own. -/
def readItems : (fuel : Nat) → (closed : Bool) → Reader → Except YamlError (List Node × Reader)
  | 0, _, _ => .error .layout
  | fuel + 1, closed, r => match r.tokens with
    | .blockEntry :: rest => do
      let ends := if closed then [.blockEntry, .blockEnd] else [.blockEntry, .key, .value, .blockEnd]
      let (n, r) ← readOptional fuel .block ends { r with tokens := rest }
      let (items, r) ← readItems fuel closed r
      .ok (n :: items, r)
    | ts =>
      if !closed then .ok ([], r) else if ts.head? == some .blockEnd then .ok ([], r.drop) else .error .layout

/-- The value after a key; without a colon there is none. -/
def readValue : (fuel : Nat) → Place → List Token → Reader → Except YamlError (Node × Reader)
  | 0, _, _, _ => .error .layout
  | fuel + 1, place, ends, r =>
    if r.sees [.value] then readOptional fuel place ends r.drop else .ok r.empty

def readBlockEntries : (fuel : Nat) → Reader → Except YamlError (List (Node × Node) × Reader)
  | 0, _ => .error .layout
  | fuel + 1, r => match r.tokens with
    | .key :: rest => do
      let ends := [.key, .value, .blockEnd]
      let (k, r) ← readOptional fuel .entry ends { r with tokens := rest }
      let (v, r) ← readValue fuel .entry ends r
      let (entries, r) ← readBlockEntries fuel r
      .ok ((k, v) :: entries, r)
    | .blockEnd :: rest => .ok ([], { r with tokens := rest })
    | _ => .error .layout

def readFlowItems : (fuel : Nat) → (first : Bool) → Reader → Except YamlError (List Node × Reader)
  | 0, _, _ => .error .layout
  | fuel + 1, first, r => do
    if r.sees [.flowSequenceEnd] then return ([], r.drop)
    let r ← if first then pure r else if r.sees [.flowEntry] then pure r.drop else throw .layout
    if r.sees [.flowSequenceEnd] then return ([], r.drop)
    if r.sees [.key] then
      let (k, r) ← readOptional fuel .flow [.value, .flowEntry, .flowSequenceEnd] r.drop
      let (v, r) ← readValue fuel .flow [.flowEntry, .flowSequenceEnd] r
      let (m, r) := r.finish none (.mapping r.next .map [(k, v)])
      let (items, r) ← readFlowItems fuel false r
      return (m :: items, r)
    else
      let (n, r) ← readNode fuel .flow r
      let (items, r) ← readFlowItems fuel false r
      return (n :: items, r)

def readFlowEntries : (fuel : Nat) → (first : Bool) → Reader →
    Except YamlError (List (Node × Node) × Reader)
  | 0, _, _ => .error .layout
  | fuel + 1, first, r => do
    if r.sees [.flowMappingEnd] then return ([], r.drop)
    let r ← if first then pure r else if r.sees [.flowEntry] then pure r.drop else throw .layout
    if r.sees [.flowMappingEnd] then return ([], r.drop)
    if r.sees [.key] then
      let (k, r) ← readOptional fuel .flow [.value, .flowEntry, .flowMappingEnd] r.drop
      let (v, r) ← readValue fuel .flow [.flowEntry, .flowMappingEnd] r
      let (entries, r) ← readFlowEntries fuel false r
      return ((k, v) :: entries, r)
    else
      let (k, r) ← readNode fuel .flow r
      let (v, r) := r.empty
      let (entries, r) ← readFlowEntries fuel false r
      return ((k, v) :: entries, r)

end

def usualHandles : List (String × String) := [("!", "!"), ("!!", tagHome)]

/-- The directives before a document: at most one version, which is 1, and no handle twice. -/
def readDirectives (versioned : Bool) (handles : List (String × String)) :
    List Token → Except YamlError (List (String × String) × List Token)
  | .directive (.version major _) :: rest =>
    if versioned || major != 1 then .error .directive else readDirectives true handles rest
  | .directive (.handle name start) :: rest =>
    if (handles.lookup name).isSome then .error .directive
    else readDirectives versioned (handles ++ [(name, start)]) rest
  | .directive .other :: rest => readDirectives versioned handles rest
  | rest => .ok (handles, rest)

def explicitDocument (ts : List Token) : Except YamlError (List (String × String) × List Token) := do
  let (handles, ts) ← readDirectives false [] ts
  match ts with
  | .documentStart :: rest => return (handles ++ usualHandles, rest)
  | _ => throw .layout

def dropDocumentEnds (ts : List Token) : List Token := ts.dropWhile (· == .documentEnd)

/-- The document of a text, if there is one; an error if there are several. -/
def readDocument (text : String) : Except YamlError (Option Node) := do
  let ts ← tokens text
  if ts.isEmpty then return none
  let start : Reader := { tokens := ts }
  let explicit := start.atDirective || start.sees [.documentStart]
  let (handles, ts) ← if explicit then explicitDocument ts else pure (usualHandles, ts)
  let r : Reader := { tokens := ts, handles }
  let (n, r) ← if explicit && (r.tokens.isEmpty || r.atDirective || r.sees [.documentStart, .documentEnd])
    then pure r.empty
    else readNode (8 * ts.length + 8) .block r
  if (dropDocumentEnds r.tokens).isEmpty then return some n
  throw .documents

end ContractAudit.Yaml
