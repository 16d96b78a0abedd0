import ContractAudit.Report.Basic

/-! # Aggregation -/

namespace ContractAudit

/-- Each number points at no greater one. -/
structure Forest where
  parent : Array Nat
  parent_le : ∀ i (h : i < parent.size), parent[i] ≤ i

namespace Forest
variable (f : Forest)

def discrete (n : Nat) : Forest where
  parent := Array.range n
  parent_le := by simp

/-- The number that `i` points at; a number outside the forest points at itself. -/
def up (i : Nat) : Nat := f.parent.getD i i

theorem up_le (i : Nat) : f.up i ≤ i := by
  unfold up
  by_cases h : i < f.parent.size
  · simpa [Array.getD, h] using f.parent_le i h
  · simp [Array.getD, h]

def point (i j : Nat) (h : j ≤ i) : Forest where
  parent := f.parent.setIfInBounds i j
  parent_le := by
    intro k hk
    rw [Array.size_setIfInBounds] at hk
    rw [Array.getElem_setIfInBounds hk]
    split
    · next e => exact e ▸ h
    · exact f.parent_le k hk

/-- The root of the class of `i`, and the forest with every second number on the way pointed at its
    grandparent. -/
def find (f : Forest) (i : Nat) : Nat × Forest :=
  if f.up i = i then (i, f)
  else
    have hle : f.up (f.up i) ≤ i := Nat.le_trans (f.up_le _) (f.up_le _)
    (f.point i (f.up (f.up i)) hle).find (f.up (f.up i))
termination_by i
decreasing_by
  have h1 := f.up_le i
  have h2 := f.up_le (f.up i)
  omega

/-- The forest with the classes of `i` and `j` joined: the greater root points at the smaller. -/
def join (i j : Nat) : Forest :=
  let (ri, f) := f.find i
  let (rj, f) := f.find j
  if ri = rj then f
  else f.point (max ri rj) (min ri rj) (Nat.le_trans (Nat.min_le_left _ _) (Nat.le_max_left _ _))

def joinAll (pairs : List (Nat × Nat)) : Forest :=
  pairs.foldl (fun f p => f.join p.1 p.2) f

def root (i : Nat) : Nat := (f.find i).1

def classes (n : Nat) : List (List Nat) :=
  ((List.range n).filter fun i => f.root i == i).map fun r =>
    (List.range n).filter fun i => f.root i == r

end Forest

/-- The findings describe the same issue: one rule, one file, and
    * the same content, unless they name different symbols, or
    * ranges of lines that overlap if both have one, else
    * the same symbol if both have one, else
    * no place inside the file at all. -/
def isDuplicate (a b : Finding) : Bool :=
  let la := a.location.normalized
  let lb := b.location.normalized
  a.ruleId == b.ruleId && la.path == lb.path
    && ((a.fingerprint.any (!·.isEmpty) && a.fingerprint == b.fingerprint
        && (la.symbol.isNone || lb.symbol.isNone || la.symbol == lb.symbol))
      || if la.lines.isSome && lb.lines.isSome then la.overlaps lb
        else if la.symbol.isSome && lb.symbol.isSome then la.symbol == lb.symbol
        else la.lines.isNone && lb.lines.isNone && la.symbol.isNone && lb.symbol.isNone)

def canonicalCmp : Finding → Finding → Ordering :=
  compareLex (compareOn Finding.ruleId) (compareLex (fun a b => a.location.key.cmp b.location.key)
    (compareLex (compareOn Finding.id) (compareOn Finding.canonical)))

section Pairs
variable {α κ : Type} [BEq κ]

/-- The pairs of positions `i < j` whose members are related. -/
def pairsIn (related : α → α → Bool) (members : List (α × Nat)) : List (Nat × Nat) :=
  members.flatMap fun (a, i) =>
    (members.filter fun (b, j) => i < j && related a b).map fun (_, j) => (i, j)

def relatedPairs (related : α → α → Bool) (s : List α) : List (Nat × Nat) := pairsIn related s.zipIdx

/-- The members of a list and their positions by key: the keys as they first occur, and the members with
    a key in their order. -/
def buckets (key : α → κ) (s : List α) : List (List (α × Nat)) :=
  (s.map key).eraseDups.map fun k => s.zipIdx.filter fun (a, _) => key a == k

end Pairs

/-- Findings are compared with those of the same rule and file only. -/
def Finding.bucket (f : Finding) : String × String := (f.ruleId, normalizePath f.location.path)

def duplicatePairs (findings : List Finding) : List (Nat × Nat) :=
  (buckets Finding.bucket findings).flatMap (pairsIn isDuplicate)

/-- The groups of duplicates, each in the given order and by their first members. -/
def duplicateGroups (findings : List Finding) : List (List Finding) :=
  let forest := (Forest.discrete findings.length).joinAll (duplicatePairs findings)
  (forest.classes findings.length).map fun c => c.filterMap (findings[·]?)

abbrev RuleOrder := List (String × Int)

variable (order : RuleOrder)

def RuleOrder.rank (ruleId : String) : Int :=
  (List.lookup ruleId order).getD order.length

/-- The order in which the members of a group are preferred: the worst first. -/
def preferenceCmp : Finding → Finding → Ordering :=
  compareLex (fun a b => compare b.severity.rank a.severity.rank)
    (compareLex (compareOn fun f => order.rank f.ruleId)
      (compareLex (fun a b => a.location.key.cmp b.location.key)
        (compareLex (compareOn Finding.id) (compareOn Finding.canonical))))

def representative (first : Finding) (rest : List Finding) : Finding :=
  rest.foldl (fun a b => if (preferenceCmp order a b).isLE then a else b) first

/-- The items of evidence, without two that have one text, in the order of their texts. -/
def mergeEvidence (items : List Evidence) : List Evidence :=
  (items.eraseDupsBy fun a b => a.text == b.text).mergeSort fun a b => a.text ≤ b.text

/-- The order in which a set of locations gives its members, by the order in which they were put in. -/
class SetOrder where
  enumerate : List Location → List Location
  perm : ∀ l, (enumerate l).Perm l

/-- The order in which they were put in. -/
instance SetOrder.insertion : SetOrder := ⟨id, fun _ => .refl _⟩

def mergeOccurrences [SetOrder] (items : List Location) : List Location :=
  (SetOrder.enumerate items.eraseDups).mergeSort fun a b => (Location.cmp a b).isLE

/-- One finding for a group: the preferred member with the worst severity and with all evidence and
    occurrences of the group. -/
def mergeGroup [SetOrder] (first : Finding) (rest : List Finding) : Finding :=
  let group := first :: rest
  { representative order first rest with
    severity := rest.foldl (fun s f => s.worse f.severity) first.severity
    evidence := mergeEvidence (group.flatMap (·.evidence))
    occurrences := mergeOccurrences (group.flatMap (·.occurrences)) }

def mergeGroup? [SetOrder] : List Finding → Option Finding
  | [] => none
  | f :: r => some (mergeGroup order f r)

def mergeGroups [SetOrder] (groups : List (List Finding)) : List Finding :=
  groups.filterMap (mergeGroup? order)

/-- The order of findings in a report: the worst first, then by path, rule, line and symbol. -/
def presentationCmp : Finding → Finding → Ordering :=
  compareLex (fun a b => compare b.severity.rank a.severity.rank)
    (compareLex (compareOn fun f => normalizePath f.location.path)
      (compareLex (compareOn Finding.ruleId)
        (compareLex (compareOn fun f => f.location.startLine?.getD (-1))
          (compareLex (compareOn fun f => f.location.symbol.getD "") (compareOn Finding.id)))))

def aggregate [SetOrder] (raw : List Finding) (diagnostics : List Diagnostic) (order : RuleOrder)
    (metadata : Entries) : Report :=
  let ordered := raw.mergeSort fun a b => (canonicalCmp a b).isLE
  { findings := (mergeGroups order (duplicateGroups ordered)).mergeSort fun a b => (presentationCmp a b).isLE
    diagnostics := diagnostics.eraseDups.mergeSort fun a b => (Diagnostic.cmp a b).isLE
    metadata }

structure Collector where
  findings : List Finding := []
  failures : List RuleFailure := []
  diagnostics : List Diagnostic := []

namespace Collector
variable (c : Collector)

def add (f : Finding) : Collector := { c with findings := c.findings ++ [f] }

def extend (fs : List Finding) : Collector := { c with findings := c.findings ++ fs }

def addFailure (f : RuleFailure) : Collector :=
  { c with failures := c.failures ++ [f] }

def addFailures (fs : List RuleFailure) : Collector :=
  { c with failures := c.failures ++ fs }

def addDiagnostic (d : Diagnostic) : Collector :=
  { c with diagnostics := c.diagnostics ++ [d] }

def report [SetOrder] (order : RuleOrder) (metadata : Entries) : Report :=
  aggregate c.findings (c.diagnostics ++ c.failures.map RuleFailure.toDiagnostic) order metadata

end Collector

end ContractAudit
