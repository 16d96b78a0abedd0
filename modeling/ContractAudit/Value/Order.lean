import ContractAudit.Decimal.Shortest
import ContractAudit.Value.Basic

/-! # The order of scalars -/

namespace ContractAudit

/-- A whole number and a double, in the order of their exact values; what is no number is neither
    before nor after anything. -/
def compareIntFloat (n : Int) (x : Float) : Ordering :=
  match Decimal.truncate? x with
  | none => if x < 0 then .gt else if 0 < x then .lt else .eq
  | some whole =>
    (compare n whole).then
      (if Float.ofInt whole < x then .lt else if x < Float.ofInt whole then .gt else .eq)

def compareFloats (x y : Float) : Ordering := if x < y then .lt else if y < x then .gt else .eq

def compareBytes : List UInt8 → List UInt8 → Ordering
  | [], [] => .eq
  | [], _ :: _ => .lt
  | _ :: _, [] => .gt
  | a :: s, b :: t => (compare a.toNat b.toNat).then (compareBytes s t)

namespace Scalar

def counted : Scalar → Scalar
  | .bool b => .int (if b then 1 else 0)
  | s => s

def compare? (a b : Scalar) : Option Ordering :=
  match a.counted, b.counted with
  | .str s, .str t => some (compare s t)
  | .bytes s, .bytes t => some (compareBytes s t)
  | .timestamp s, .timestamp t => s.compare? t
  | .int m, .int n => some (compare m n)
  | .int n, .float x => some (compareIntFloat n x)
  | .float x, .int n => some (compareIntFloat n x).swap
  | .float x, .float y => some (compareFloats x y)
  | _, _ => none

def le? (a b : Scalar) : Option Bool := (compare? a b).map Ordering.isLE

end Scalar

end ContractAudit
