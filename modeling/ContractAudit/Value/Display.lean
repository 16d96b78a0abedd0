import ContractAudit.Decimal.Reading
import ContractAudit.Text.Quoted
import ContractAudit.Value.Basic

/-! # Values in messages -/

namespace ContractAudit

def shownBytes (bs : List UInt8) : String :=
  let s := bs.map fun b => Char.ofNat b.toNat
  let q := Text.quoteFor s
  let piece (c : Char) : List Char :=
    if c.toNat < 127 then Text.quotedChar q c else Text.codePointEscape c
  String.ofList ('b' :: q :: s.flatMap piece ++ [q])

def Scalar.show : Scalar → String
  | .null => "None"
  | .bool b => if b then "True" else "False"
  | .int n => toString n
  | .float x => Decimal.text x
  | .str s => Text.quoted s
  | .timestamp t => t.shown
  | .bytes bs => shownBytes bs

namespace Value

def inParentheses : List String → String
  | [s] => "(" ++ s ++ ",)"
  | items => "(" ++ ", ".intercalate items ++ ")"

def inBraces : List String → String
  | [] => "set()"
  | items => "\x7b" ++ ", ".intercalate items ++ "\x7d"

mutual

def shown : Value → String
  | .scalar s => s.show
  | .list items => "[" ++ ", ".intercalate (showItems items) ++ "]"
  | .tuple items => inParentheses (showItems items)
  | .set items => inBraces (items.map Scalar.show)
  | .map entries => "\x7b" ++ ", ".intercalate (showEntries entries) ++ "\x7d"

def showItems : List Value → List String
  | [] => []
  | v :: s => v.shown :: showItems s

def showEntries : List (Scalar × Value) → List String
  | [] => []
  | (k, v) :: s => (k.show ++ ": " ++ v.shown) :: showEntries s

end

/-- A value as a text of its own: a string is that text, and a timestamp its usual text. -/
def plain : Value → String
  | .str s => s
  | .scalar (.timestamp t) => t.text
  | v => v.shown

end Value

def Scalar.isTooLong : Scalar → Bool
  | .int n => Nat.pow 10 Decimal.maxDigits ≤ n.natAbs
  | _ => false

namespace Value

mutual

/-- An integer in the value has more digits than are written, so that the value has no text. -/
def isTooLong : Value → Bool
  | .scalar s => s.isTooLong
  | .list items => anyTooLong items
  | .tuple items => anyTooLong items
  | .set items => items.any Scalar.isTooLong
  | .map entries => anyEntryTooLong entries

def anyTooLong : List Value → Bool
  | [] => false
  | v :: s => v.isTooLong || anyTooLong s

def anyEntryTooLong : List (Scalar × Value) → Bool
  | [] => false
  | (k, v) :: s => k.isTooLong || v.isTooLong || anyEntryTooLong s

end

theorem anyTooLong_eq_any (vs : List Value) : anyTooLong vs = vs.any isTooLong := by
  induction vs with
  | nil => rfl
  | cons v vs ih => rw [anyTooLong, ih, List.any_cons]

theorem anyEntryTooLong_eq_any (m : List (Scalar × Value)) :
    anyEntryTooLong m = m.any fun e => e.1.isTooLong || e.2.isTooLong := by
  induction m with
  | nil => rfl
  | cons e m ih => rw [anyEntryTooLong, ih, List.any_cons]

def kindName : Value → String
  | .scalar .null => "NoneType"
  | .scalar (.bool _) => "bool"
  | .scalar (.int _) => "int"
  | .scalar (.float _) => "float"
  | .scalar (.str _) => "str"
  | .scalar (.timestamp t) => t.kindName
  | .scalar (.bytes _) => "bytes"
  | .list _ => "list"
  | .tuple _ => "tuple"
  | .set _ => "set"
  | .map _ => "dict"

end Value

end ContractAudit
