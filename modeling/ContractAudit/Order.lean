/-! # Choosing and slicing -/

namespace ContractAudit

def firstMin {α : Type} (key : α → Nat) : List α → Option α
  | [] => none
  | a :: s => match firstMin key s with
    | none => some a
    | some b => if key a ≤ key b then some a else some b

def firstMax {α : Type} (key : α → Nat) : List α → Option α
  | [] => none
  | a :: s => match firstMax key s with
    | none => some a
    | some b => if key b ≤ key a then some a else some b

/-- The position in a list of length `n` that a signed position stands for: a negative one counts
    from the end, and one outside the list is moved to its border. -/
def position (n : Nat) (i : Int) : Nat :=
  if i < 0 then (n + i).toNat else min n i.toNat

def slice {α : Type} (s : List α) (start stop : Int) : List α :=
  let first := position s.length start
  (s.drop first).take (position s.length stop - first)

end ContractAudit
