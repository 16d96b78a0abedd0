import ContractAudit.Value.Display

/-! # JSON texts -/

namespace ContractAudit.Json
open Text

def unitEscape (n : Nat) : List Char := '\\' :: 'u' :: hexDigits 4 n

def escapeChar (c : Char) : List Char :=
  if c == '"' then ['\\', '"']
  else if c == '\\' then ['\\', '\\']
  else if c == '\n' then ['\\', 'n']
  else if c == '\r' then ['\\', 'r']
  else if c == '\t' then ['\\', 't']
  else if c.toNat == 8 then ['\\', 'b']
  else if c.toNat == 12 then ['\\', 'f']
  else if 32 ≤ c.toNat && c.toNat < 127 then [c]
  else if c.toNat < 0x10000 then unitEscape c.toNat
  else
    let n := c.toNat - 0x10000
    unitEscape (0xd800 + n / 0x400) ++ unitEscape (0xdc00 + n % 0x400)

def string (s : String) : String :=
  String.ofList ('"' :: s.toList.flatMap escapeChar ++ ['"'])

def number (x : Float) : String :=
  if x.isNaN then "NaN"
  else if x.isInf then (if x < 0 then "-Infinity" else "Infinity")
  else Decimal.text x

def scalar : Scalar → String
  | .null => "null"
  | .bool b => if b then "true" else "false"
  | .int n => toString n
  | .float x => number x
  | .str s => string s
  | .timestamp t => string t.text
  | .bytes bs => string (shownBytes bs)

/-- The text of a key: a string is that text, any other scalar its JSON text. -/
def keyText : Scalar → String
  | .str s => s
  | k => scalar k

structure Format where
  colon : String
  comma : String
  /-- Items go on lines of their own, with so many spaces for each level. -/
  indent : Option Nat
  sorted : Bool

/-- No spaces, sorted keys: equal values have equal texts. -/
def compact : Format := ⟨":", ",", none, true⟩

def line : Format := ⟨": ", ", ", none, false⟩

def sortedLine : Format := ⟨": ", ", ", none, true⟩

def pretty : Format := ⟨": ", ",", some 2, true⟩

def enclose (f : Format) (level : Nat) (opening closing : String) (items : List String) : String :=
  if items.isEmpty then opening ++ closing
  else match f.indent with
    | none => opening ++ f.comma.intercalate items ++ closing
    | some n =>
      let pad (k : Nat) := "\n" ++ String.ofList (List.replicate (n * k) ' ')
      opening ++ pad (level + 1) ++ (f.comma ++ pad (level + 1)).intercalate items
        ++ pad level ++ closing

def arrange (f : Format) (fields : List (String × String)) : List (String × String) :=
  if f.sorted then fields.mergeSort (fun a b => a.1 ≤ b.1) else fields

mutual

def renderAt (f : Format) (level : Nat) : Value → String
  | .scalar s => scalar s
  | .list items | .tuple items => enclose f level "[" "]" (renderItems f (level + 1) items)
  | .set items => string (Value.set items).shown
  | .map entries =>
    let fields := arrange f (renderEntries f (level + 1) entries)
    enclose f level "\x7b" "\x7d" (fields.map fun (k, v) => string k ++ f.colon ++ v)

def renderItems (f : Format) (level : Nat) : List Value → List String
  | [] => []
  | v :: s => renderAt f level v :: renderItems f level s

def renderEntries (f : Format) (level : Nat) : List (Scalar × Value) → List (String × String)
  | [] => []
  | (k, v) :: s => (keyText k, renderAt f level v) :: renderEntries f level s

end

def render (f : Format) (v : Value) : String := renderAt f 0 v

def canonical (v : Value) : String := render compact v

/-! ## What is not written -/

def isText : Scalar → Bool
  | .str _ => true
  | _ => false

def isNumber : Scalar → Bool
  | .bool _ | .int _ | .float _ => true
  | _ => false

/-- A scalar that JSON knows. -/
def isKnown (s : Scalar) : Bool := s == .null || isText s || isNumber s

/-- Keys that can be put in order: texts, or numbers, or one key alone. -/
def comparable (keys : List Scalar) : Bool := keys.length ≤ 1 || keys.all isText || keys.all isNumber

mutual

/-- Part of the value is of no kind that is written. What JSON does not know is written as a text, if it is no
    key, unless that is forbidden. -/
def refuses (f : Format) (strict : Bool) : Value → Bool
  | .scalar s => strict && !isKnown s
  | .list items | .tuple items => refusesItem f strict items
  | .set _ => strict
  | .map entries =>
    !entries.all (isKnown ·.1) || f.sorted && !comparable (entries.map (·.1)) || refusesEntry f strict entries

def refusesItem (f : Format) (strict : Bool) : List Value → Bool
  | [] => false
  | v :: s => refuses f strict v || refusesItem f strict s

def refusesEntry (f : Format) (strict : Bool) : List (Scalar × Value) → Bool
  | [] => false
  | (_, v) :: s => refuses f strict v || refusesEntry f strict s

end

theorem refusesItem_eq_any {f : Format} {strict : Bool} (items : List Value) :
    refusesItem f strict items = items.any (refuses f strict) := by
  induction items with
  | nil => rfl
  | cons v items ih => rw [refusesItem, ih, List.any_cons]

theorem refusesEntry_eq_any {f : Format} {strict : Bool} (entries : List (Scalar × Value)) :
    refusesEntry f strict entries = entries.any fun e => refuses f strict e.2 := by
  induction entries with
  | nil => rfl
  | cons e entries ih => rw [refusesEntry, ih, List.any_cons]

/-- The text of a value, if it can be written. An integer of too many digits cannot. -/
def dumps? (f : Format) (v : Value) : Option String :=
  if v.isTooLong || refuses f false v then none else some (render f v)

/-! ## What is read back -/

def decodedScalar : Scalar → Scalar
  | .timestamp t => .str t.text
  | .bytes bs => .str (shownBytes bs)
  | s => s

def keyLe (a b : Scalar × Value) : Bool := keyText a.1 ≤ keyText b.1

mutual

/-- A value as its text with sorted keys tells it: tuples are lists, keys are texts in their order, and
    what JSON has no form for is a text. -/
def decoded : Value → Value
  | .scalar s => .scalar (decodedScalar s)
  | .list items | .tuple items => .list (decodedItems items)
  | .set items => .str (Value.set items).shown
  | .map entries => .map ((decodedEntries entries).mergeSort keyLe)

def decodedItems : List Value → List Value
  | [] => []
  | v :: s => decoded v :: decodedItems s

def decodedEntries : List (Scalar × Value) → List (Scalar × Value)
  | [] => []
  | (k, v) :: s => (.str (keyText k), decoded v) :: decodedEntries s

end

theorem decodedItems_eq_map (items : List Value) : decodedItems items = items.map decoded := by
  induction items with
  | nil => rfl
  | cons v items ih => rw [decodedItems, ih, List.map_cons]

def decodedEntry (e : Scalar × Value) : Scalar × Value := (.str (keyText e.1), decoded e.2)

theorem decodedEntries_eq_map (entries : Entries) : decodedEntries entries = entries.map decodedEntry := by
  induction entries with
  | nil => rfl
  | cons e entries ih =>
    obtain ⟨k, v⟩ := e
    rw [decodedEntries, ih, List.map_cons]
    rfl

theorem decoded_map (entries : Entries) :
    decoded (.map entries) = .map ((entries.mergeSort keyLe).map decodedEntry) := by
  rw [decoded, decodedEntries_eq_map, List.map_mergeSort]
  intro a _ b _
  rfl

theorem sorted_decodedEntry (entries : Entries) :
    ((entries.mergeSort keyLe).map decodedEntry).Pairwise fun a b => keyLe a b = true := by
  have hsorted : (entries.mergeSort keyLe).Pairwise fun a b => keyLe a b = true := by
    refine List.pairwise_mergeSort (fun a b c hab hbc => ?_) (fun a b => ?_) entries
    · exact decide_eq_true (Std.le_trans (of_decide_eq_true hab) (of_decide_eq_true hbc))
    · simpa [keyLe] using Std.le_total (a := keyText a.1) (b := keyText b.1)
  exact List.pairwise_map.mpr hsorted

theorem decoded_decoded (v : Value) : decoded (decoded v) = decoded v := by
  have hitems : ∀ items : List Value, (∀ v ∈ items, decoded (decoded v) = decoded v) →
      decoded (.list (decodedItems items)) = .list (decodedItems items) := by
    intro items ih
    rw [decoded, decodedItems_eq_map, decodedItems_eq_map, List.map_map]
    exact congrArg Value.list (List.map_congr_left ih)
  induction v using Value.induct with
  | scalar s => cases s <;> rfl
  | list items ih => exact hitems items ih
  | tuple items ih => exact hitems items ih
  | set items => rfl
  | map entries ih =>
    rw [decoded_map, decoded_map, List.mergeSort_of_pairwise (sorted_decodedEntry entries), List.map_map]
    refine congrArg Value.map (List.map_congr_left fun e he => ?_)
    exact Prod.ext rfl (ih e (List.mem_mergeSort.mp he))

end ContractAudit.Json
