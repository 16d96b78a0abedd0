import ContractAudit.Value.Timestamp

/-! # Dynamic values -/

namespace ContractAudit

/-- A value without parts; the keys of maps are such values. -/
inductive Scalar where
  | null
  | bool (b : Bool)
  | int (n : Int)
  | float (x : Float)
  | str (s : String)
  | timestamp (t : Timestamp)
  | bytes (bs : List UInt8)
deriving DecidableEq

inductive Value where
  | scalar (s : Scalar)
  | list (items : List Value)
  | tuple (items : List Value)
  | set (items : List Scalar)
  | map (entries : List (Scalar × Value))

namespace Value

@[match_pattern] abbrev null : Value := .scalar .null
@[match_pattern] abbrev bool (b : Bool) : Value := .scalar (.bool b)
@[match_pattern] abbrev int (n : Int) : Value := .scalar (.int n)
@[match_pattern] abbrev float (x : Float) : Value := .scalar (.float x)
@[match_pattern] abbrev str (s : String) : Value := .scalar (.str s)

instance : Inhabited Value := ⟨.null⟩

mutual

def decEq : (a b : Value) → Decidable (a = b)
  | .scalar a, .scalar b => if h : a = b then .isTrue (by rw [h]) else .isFalse (by simp [h])
  | .list a, .list b => match decEqItems a b with
    | .isTrue h => .isTrue (by rw [h])
    | .isFalse h => .isFalse (by simp [h])
  | .tuple a, .tuple b => match decEqItems a b with
    | .isTrue h => .isTrue (by rw [h])
    | .isFalse h => .isFalse (by simp [h])
  | .set a, .set b => if h : a = b then .isTrue (by rw [h]) else .isFalse (by simp [h])
  | .map a, .map b => match decEqEntries a b with
    | .isTrue h => .isTrue (by rw [h])
    | .isFalse h => .isFalse (by simp [h])
  | .scalar _, .list _ | .scalar _, .tuple _ | .scalar _, .set _ | .scalar _, .map _ =>
    .isFalse (by simp)
  | .list _, .scalar _ | .list _, .tuple _ | .list _, .set _ | .list _, .map _ => .isFalse (by simp)
  | .tuple _, .scalar _ | .tuple _, .list _ | .tuple _, .set _ | .tuple _, .map _ =>
    .isFalse (by simp)
  | .set _, .scalar _ | .set _, .list _ | .set _, .tuple _ | .set _, .map _ => .isFalse (by simp)
  | .map _, .scalar _ | .map _, .list _ | .map _, .tuple _ | .map _, .set _ => .isFalse (by simp)

def decEqItems : (a b : List Value) → Decidable (a = b)
  | [], [] => .isTrue rfl
  | [], _ :: _ => .isFalse (by simp)
  | _ :: _, [] => .isFalse (by simp)
  | a :: s, b :: t => match decEq a b, decEqItems s t with
    | .isTrue h, .isTrue g => .isTrue (by rw [h, g])
    | .isFalse h, _ => .isFalse (by simp [h])
    | _, .isFalse g => .isFalse (by simp [g])

def decEqEntries : (a b : List (Scalar × Value)) → Decidable (a = b)
  | [], [] => .isTrue rfl
  | [], _ :: _ => .isFalse (by simp)
  | _ :: _, [] => .isFalse (by simp)
  | (k, a) :: s, (l, b) :: t => match decEq a b, decEqEntries s t with
    | .isTrue h, .isTrue g => if e : k = l then .isTrue (by rw [h, g, e]) else .isFalse (by simp [e])
    | .isFalse h, _ => .isFalse (by simp [h])
    | _, .isFalse g => .isFalse (by simp [g])

end

instance : DecidableEq Value := decEq

/-- A property of all values holds if it holds of a list, a tuple or a map whenever it holds of the
    values in it. -/
@[elab_as_elim]
theorem induct {motive : Value → Prop} (scalar : ∀ s, motive (.scalar s))
    (list : ∀ items, (∀ v ∈ items, motive v) → motive (.list items))
    (tuple : ∀ items, (∀ v ∈ items, motive v) → motive (.tuple items)) (set : ∀ items, motive (.set items))
    (map : ∀ entries, (∀ e ∈ entries, motive e.2) → motive (.map entries)) (v : Value) : motive v := by
  refine @Value.rec motive (fun items => ∀ v ∈ items, motive v) (fun entries => ∀ e ∈ entries, motive e.2)
    (fun e => motive e.2) scalar list tuple set map ?_ ?_ ?_ ?_ ?_ v
  · simp
  · intro v items hv hitems
    exact List.forall_mem_cons.mpr ⟨hv, hitems⟩
  · simp
  · intro e entries he hentries
    exact List.forall_mem_cons.mpr ⟨he, hentries⟩
  · intro k v hv
    exact hv

def record (entries : List (String × Value)) : Value :=
  .map (entries.map fun (k, v) => (.str k, v))

def strings (items : List String) : Value := .list (items.map .str)

def ofString? : Option String → Value
  | none => .null
  | some s => .str s

def ofInt? : Option Int → Value
  | none => .null
  | some n => .int n

def truthy : Value → Bool
  | .scalar .null => false
  | .scalar (.bool b) => b
  | .scalar (.int n) => n != 0
  | .scalar (.float x) => x != 0
  | .scalar (.str s) => !s.isEmpty
  | .scalar (.timestamp _) => true
  | .scalar (.bytes bs) => !bs.isEmpty
  | .list items | .tuple items => !items.isEmpty
  | .set items => !items.isEmpty
  | .map entries => !entries.isEmpty

def isNull : Value → Bool
  | .scalar .null => true
  | _ => false

end Value

/-- The number that a scalar counts as: truth values are 0 and 1. -/
def Scalar.number? : Scalar → Option Float
  | .bool b => some (if b then 1 else 0)
  | .int n => some (Float.ofInt n)
  | .float x => some x
  | _ => none

/-- Two keys of a map are the same key: they are equal, equal as numbers, or the same timestamp. -/
def Scalar.sameKey (a b : Scalar) : Bool :=
  match a, b with
  | .int m, .int n => m == n
  | .timestamp s, .timestamp t => s.compare? t == some .eq
  | _, _ => a == b || match a.number?, b.number? with
    | some x, some y => x == y
    | _, _ => false

abbrev Entries := List (Scalar × Value)

namespace Entries

def get? (m : Entries) (k : Scalar) : Option Value :=
  (m.find? fun e => e.1.sameKey k).map (·.2)

def get (m : Entries) (k : String) : Option Value := get? m (.str k)

/-- The entries with a key set to a value: in its old place if it has one, else at the end. -/
def insert (m : Entries) (k : Scalar) (v : Value) : Entries :=
  if m.any fun e => e.1.sameKey k then
    m.map fun e => if e.1.sameKey k then (e.1, v) else e
  else m ++ [(k, v)]

def set (m : Entries) (k : String) (v : Value) : Entries := insert m (.str k) v

def ofList (entries : List (Scalar × Value)) : Entries :=
  entries.foldl (fun m e => insert m e.1 e.2) []

def overlay (m n : Entries) : Entries := n.foldl (fun m e => insert m e.1 e.2) m

end Entries

end ContractAudit
