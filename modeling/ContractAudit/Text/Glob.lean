/-! # Patterns with wildcards -/

namespace ContractAudit.Text
variable {s body rest : List Char} {p : GlobPart}

inductive GlobPart where
  | anyText
  | anyChar
  | char (c : Char)
  /-- One of the characters in the ranges, or one in none of them. -/
  | set (negated : Bool) (ranges : List (Char × Char))
deriving DecidableEq, Repr

/-- The text up to the first `]` after `lead` characters, and what is after it. -/
def upToBracket? (lead : Nat) (s : List Char) : Option (List Char × List Char) :=
  match (s.drop lead).dropWhile (· != ']') with
  | [] => none
  | _ :: rest => some (s.take lead ++ (s.drop lead).takeWhile (· != ']'), rest)

theorem length_of_upToBracket? {lead : Nat}
    (h : upToBracket? lead s = some (body, rest)) : rest.length < s.length := by
  unfold upToBracket? at h
  split at h
  · cases h
  · next heq =>
    cases h
    have hd : ((s.drop lead).dropWhile (· != ']')).length ≤ (s.drop lead).length :=
      (List.dropWhile_sublist _).length_le
    rw [heq] at hd
    simp at hd
    omega

/-- The text between brackets and what is after them: a `]` right at the start, or after a `!`
    there, does not close. -/
def bracketed? (s : List Char) : Option (List Char × List Char) :=
  match s with
  | '!' :: ']' :: _ => upToBracket? 2 s
  | '!' :: _ => upToBracket? 1 s
  | ']' :: _ => upToBracket? 1 s
  | _ => upToBracket? 0 s

theorem length_of_bracketed? (h : bracketed? s = some (body, rest)) : rest.length < s.length := by
  unfold bracketed? at h
  split at h <;> exact length_of_upToBracket? h

/-- The pieces between the hyphens that make ranges; a hyphen at the start of a piece, or right
    after its first character there, makes none. -/
def hyphenPieces : (fuel : Nat) → (skip : Nat) → List Char → List (List Char)
  | 0, _, s => [s]
  | fuel + 1, skip, s =>
    let ahead := (s.drop skip).takeWhile (· != '-')
    if skip + ahead.length < s.length then
      s.take (skip + ahead.length) :: hyphenPieces fuel 2 (s.drop (skip + ahead.length + 1))
    else [s]

/-- The pieces, with a last piece that is empty made a hyphen of the one before. -/
def closeHyphens : List (List Char) → List (List Char)
  | [a, []] => [a ++ ['-']]
  | a :: s => a :: closeHyphens s
  | [] => []

/-- The pieces without the ranges that hold nothing: the two are joined without their ends there.
    The last range is looked at first. -/
def dropEmptyRanges : List (List Char) → List (List Char)
  | [] => []
  | a :: s => match dropEmptyRanges s with
    | [] => [a]
    | b :: t => match a.getLast?, b with
      | some x, y :: b' => if x > y then (a.dropLast ++ b') :: t else a :: b :: t
      | _, _ => a :: b :: t

/-- The ranges of pieces: the last character of one up to the first of the next, and all others by
    themselves. After an empty piece the hyphen stands for itself. -/
def rangesOf : List (List Char) → List (Char × Char)
  | [] => []
  | [a] => a.map fun c => (c, c)
  | a :: b :: t =>
    let own := a.map fun c => (c, c)
    match a.getLast?, b with
    | some x, y :: _ => own ++ (x, y) :: rangesOf (b :: t)
    | _, _ => own ++ ('-', '-') :: rangesOf (b :: t)

def bracketPieces (s : List Char) : List (List Char) :=
  let skip := if s.head? == some '!' then 2 else 1
  dropEmptyRanges (closeHyphens (hyphenPieces s.length skip s))

def bracketSet (s : List Char) : GlobPart :=
  match bracketPieces s with
  | ('!' :: a) :: t => .set true (rangesOf (a :: t))
  | pieces => .set false (rangesOf pieces)

def globParts : List Char → List GlobPart
  | [] => []
  | '*' :: s => .anyText :: globParts s
  | '?' :: s => .anyChar :: globParts s
  | '[' :: s => match _h : bracketed? s with
    | some (body, rest) => bracketSet body :: globParts rest
    | none => .char '[' :: globParts s
  | c :: s => .char c :: globParts s
termination_by s => s.length
decreasing_by
  all_goals simp
  have := length_of_bracketed? _h
  omega

def inAnyRange (ranges : List (Char × Char)) (c : Char) : Bool :=
  ranges.any fun r => r.1 ≤ c && c ≤ r.2

def GlobPart.takes : GlobPart → Char → Bool
  | .anyText, _ => true
  | .anyChar, _ => true
  | .char d, c => c == d
  | .set negated ranges, c => inAnyRange ranges c != negated

def globMatches : List GlobPart → List Char → Bool
  | [], s => s.isEmpty
  | .anyText :: ps, [] => globMatches ps []
  | .anyText :: ps, c :: s => globMatches ps (c :: s) || globMatches (.anyText :: ps) s
  | _ :: _, [] => false
  | p :: ps, c :: s => p.takes c && globMatches ps s
termination_by ps s => ps.length + s.length

/-! ### Matching by rows

A row tells for every rest of a text, the whole text first and the empty one last, whether parts
match it. The row of some parts comes from the row of all but the first, so the work is the number
of parts times the length of the text. -/

/-- For every position, whether there is a yes at it or after it. -/
def anyFrom : List Bool → List Bool
  | [] => []
  | b :: s =>
    let row := anyFrom s
    (b || row.head?.getD false) :: row

/-- The row after one more part in front of those of a row. -/
def rowBefore (p : GlobPart) (s : List Char) (row : List Bool) : List Bool :=
  if p = .anyText then anyFrom row
  else List.zipWith (fun c b => p.takes c && b) s row.tail ++ [false]

def globRow (s : List Char) : List GlobPart → List Bool
  | [] => s.map (fun _ => false) ++ [true]
  | p :: ps => rowBefore p s (globRow s ps)

def rests : List Char → List (List Char)
  | [] => [[]]
  | c :: s => (c :: s) :: rests s

theorem rests_eq_cons (s : List Char) : ∃ t, rests s = s :: t := by
  cases s with
  | nil => exact ⟨[], rfl⟩
  | cons c s => exact ⟨rests s, rfl⟩

theorem anyFrom_map_globMatches (ps : List GlobPart) (s : List Char) :
    anyFrom ((rests s).map (globMatches ps)) = (rests s).map (globMatches (.anyText :: ps)) := by
  induction s with
  | nil => simp [rests, anyFrom, globMatches]
  | cons c s ih =>
    obtain ⟨t, ht⟩ := rests_eq_cons s
    simp only [rests, List.map_cons, anyFrom, ih, globMatches]
    simp [ht]

theorem globMatches_cons_nil (hp : p ≠ .anyText) (ps : List GlobPart) : globMatches (p :: ps) [] = false := by
  cases p <;> simp_all [globMatches]

theorem globMatches_cons_cons (hp : p ≠ .anyText) (ps : List GlobPart) (c : Char)
    (s : List Char) : globMatches (p :: ps) (c :: s) = (p.takes c && globMatches ps s) := by
  cases p <;> simp_all [globMatches]

theorem zipWith_map_globMatches (hp : p ≠ .anyText) (ps : List GlobPart) (s : List Char) :
    List.zipWith (fun c b => p.takes c && b) s ((rests s).map (globMatches ps)).tail ++ [false]
      = (rests s).map (globMatches (p :: ps)) := by
  induction s with
  | nil => simp [rests, globMatches_cons_nil hp]
  | cons c s ih =>
    obtain ⟨t, ht⟩ := rests_eq_cons s
    simp only [rests, List.map_cons, List.tail_cons, globMatches_cons_cons hp]
    rw [← ih, ht]
    simp

/-- A row tells of every rest of the text whether the parts match it. -/
theorem globRow_eq (s : List Char) (ps : List GlobPart) : globRow s ps = (rests s).map (globMatches ps) := by
  induction ps with
  | nil =>
    induction s with
    | nil => simp [globRow, rests, globMatches]
    | cons c s ih =>
      simp only [globRow, List.map_cons, List.cons_append, rests] at ih ⊢
      rw [ih]
      simp [globMatches]
  | cons p ps ih =>
    rw [globRow, ih, rowBefore]
    split
    · next h => rw [h, anyFrom_map_globMatches]
    · next h => rw [zipWith_map_globMatches h]

def globMatch (pattern text : String) : Bool :=
  (globRow text.toList (globParts pattern.toList)).head?.getD false

theorem globMatch_eq (pattern text : String) :
    globMatch pattern text = globMatches (globParts pattern.toList) text.toList := by
  obtain ⟨t, ht⟩ := rests_eq_cons text.toList
  simp [globMatch, globRow_eq, ht]

end ContractAudit.Text
