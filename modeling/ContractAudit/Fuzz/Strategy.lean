import ContractAudit.Files.Tree
import ContractAudit.Finding.Diagnostic
import ContractAudit.Order
import ContractAudit.Random.Twister

/-! # Strategies -/

namespace ContractAudit

structure Corpus where
  name : String := "default"
  seeds : List (List UInt8) := []
deriving DecidableEq, Repr

structure SeedOutOfRange where

def SeedOutOfRange.message (_ : SeedOutOfRange) : String := "tuple index out of range"

namespace Corpus

/-- The files in a directory as seeds, by name; hidden ones and those that are too large are left
    out. -/
def ofDirectory (t : Node) (dir : FilePath) (maxSize : Option Int) : Corpus where
  name := dir.name
  seeds :=
    if t.isDir dir then (t.list dir).filterMap fun name =>
      match t.find (dir.child name) with
      | .ok (.file f) =>
        if name.toList.head? == some '.' || maxSize.any (· < (f.bytes.length : Int)) then none
        else some f.bytes
      | _ => none
    else []

def choice (c : Corpus) (g : Twister) : Option (List UInt8) × Twister :=
  if c.seeds.isEmpty then (none, g)
  else
    let (i, g) := g.below c.seeds.length
    (c.seeds[i]?, g)

def get (c : Corpus) (i : Int) : Except SeedOutOfRange (List UInt8) :=
  let i := if i < 0 then i + c.seeds.length else i
  if i < 0 then .error {}
  else match c.seeds[i.toNat]? with
    | some s => .ok s
    | none => .error {}

def shown (c : Corpus) : String :=
  "SeedCorpus(" ++ Text.quoted c.name ++ ", seeds=" ++ toString c.seeds.length ++ ")"

end Corpus

structure Strategy where
  name : String
  implementation : String
  count : Option Nat := none
  /-- The input of an execution, none if there are no more. Executions are numbered from zero; a
      strategy with a fixed list of inputs counts a negative number from the end of the list. -/
  next : Corpus → (execution : Int) → Twister → Except Fault (Option (List UInt8) × Twister)

def Strategy.shown (s : Strategy) : String :=
  s.implementation ++ "(" ++ Text.quoted s.name ++ ")"

inductive StrategyError where
  | sizeRange (least most : Int)
  | zeroWidth
  | negativeWidth
deriving DecidableEq, Repr

def StrategyError.message : StrategyError → String
  | sizeRange least most => "invalid size range " ++ toString least ++ ".." ++ toString most
  | zeroWidth => "can't convert negative int to unsigned"
  | negativeWidth => "'float' object has no attribute 'to_bytes'"

namespace Strategy
variable (data : List UInt8) (g : Twister)

def randomInput (least most : Nat) (g : Twister) : List UInt8 × Twister :=
  let (size, g) := g.between least most
  g.bytes size

def randomBytes (least most : Int) : Except StrategyError Strategy :=
  if least < 0 || most < least then .error (.sizeRange least most)
  else .ok {
    name := "random-bytes"
    implementation := "RandomBytesStrategy"
    next := fun _ _ g =>
      let (s, g) := randomInput least.toNat most.toNat g
      .ok (some s, g) }

def littleEndian : (width : Nat) → Nat → List UInt8
  | 0, _ => []
  | w + 1, n => n.toUInt8 :: littleEndian w (n / 256)

def interestingBytes : List UInt8 := [0x00, 0x01, 0x7f, 0x80, 0xff]

def interestingNumbers : List Nat :=
  [0, 1, 0xff, 0xffff, 0x7fffffff, 0xffffffff, 0x7fffffffffffffff, 0x8000000000000000,
    0xffffffffffffffff]

def flipBit : List UInt8 × Twister :=
  let (pos, g) := g.below data.length
  let (bit, g) := g.below 8
  (data.modify pos (· ^^^ ((1 : UInt8) <<< bit.toUInt8)), g)

def replaceByte : List UInt8 × Twister :=
  let (i, g) := g.below interestingBytes.length
  let (pos, g) := g.below data.length
  (data.set pos (interestingBytes.getD i 0), g)

def insertByte : List UInt8 × Twister :=
  let (pos, g) := g.between 0 data.length
  let (b, g) := g.byte
  (data.take pos ++ b :: data.drop pos, g)

def deleteByte : List UInt8 × Twister :=
  let (pos, g) := g.below data.length
  (data.eraseIdx pos, g)

/-- An interesting number written over eight bytes, or over as many as there are. -/
def writeNumber : List UInt8 × Twister :=
  let (i, g) := g.below interestingNumbers.length
  let (pos, g) := g.between 0 data.length
  (data.take pos ++ littleEndian 8 (interestingNumbers.getD i 0) ++ data.drop (pos + 8), g)

/-- One mutation; of no bytes at all the only one is to put one in. -/
def mutate : List UInt8 × Twister :=
  let (op, g) := g.below 5
  match if data.isEmpty then 2 else op with
  | 0 => flipBit data g
  | 1 => replaceByte data g
  | 2 => insertByte data g
  | 3 => deleteByte data g
  | _ => writeNumber data g

def mutateTimes : Nat → List UInt8 → Twister → List UInt8 × Twister
  | 0, data, g => (data, g)
  | n + 1, data, g =>
    let (data, g) := mutate data g
    mutateTimes n data g

/-- What mutations start from: a seed, or random bytes if there are no seeds. -/
def mutationSeed (c : Corpus) (g : Twister) : List UInt8 × Twister :=
  match c.choice g with
  | (some s, g) => (s, g)
  | (none, g) => randomInput 1 16 g

/-- A mutated seed, cut off at the greatest size if there is one; a negative size cuts off that many
    at the end. -/
def mutatedInput (most : Nat) (maxSize : Option Int) (c : Corpus) (g : Twister) : List UInt8 × Twister :=
  let (seed, g) := mutationSeed c g
  let (times, g) := g.between 1 most
  let (data, g) := mutateTimes times seed g
  (maxSize.elim data (slice data 0), g)

def mutation (maxMutations : Int) (maxSize : Option Int) : Strategy where
  name := "mutation"
  implementation := "MutationStrategy"
  next := fun c _ g =>
    let (s, g) := mutatedInput (max 1 maxMutations).toNat maxSize c g
    .ok (some s, g)

/-- The input of an execution in a list, and none after its end; a negative number counts from the
    end, and one before the start is outside of the list. -/
def inputAt (inputs : List (List UInt8)) (execution : Int) (outside : String) :
    Except Fault (Option (List UInt8)) :=
  if 0 ≤ execution then .ok inputs[execution.toNat]?
  else if 0 ≤ execution + inputs.length then .ok inputs[(execution + inputs.length).toNat]?
  else .error ⟨"IndexError", outside⟩

def boundaryNumbers (width : Nat) : List Nat :=
  let half := Nat.pow 2 (8 * width - 1)
  let all := Nat.pow 2 (8 * width)
  [0, 1, half - 1, half, all - 2, all - 1]

def boundaryInputs (lead : List UInt8) (width : Nat) : List (List UInt8) :=
  (boundaryNumbers width).map fun n => lead ++ littleEndian width n

def badWidth? (widths : List Int) : Option StrategyError :=
  (widths.find? (· < 1)).map fun w => if w = 0 then .zeroWidth else .negativeWidth

def boundary (widths : List Int) (lead : List UInt8) : Except StrategyError Strategy :=
  match badWidth? widths with
  | some e => .error e
  | none =>
    let inputs := widths.flatMap fun w => boundaryInputs lead w.toNat
    .ok {
      name := "boundary"
      implementation := "BoundaryValueStrategy"
      count := some inputs.length
      next := fun _ execution g => do
        return (← inputAt inputs execution "list index out of range", g) }

def seedReplay : Strategy where
  name := "seed-replay"
  implementation := "SeedReplayStrategy"
  next := fun c execution g => do
    return (← inputAt c.seeds execution (SeedOutOfRange.message {}), g)

def defaultWidths : List Int := [1, 2, 4, 8]

def defaults : List Strategy :=
  [seedReplay] ++ (boundary defaultWidths []).toOption.toList ++ [mutation 4 (some 4096)]
    ++ (randomBytes 1 64).toOption.toList

end Strategy

end ContractAudit
