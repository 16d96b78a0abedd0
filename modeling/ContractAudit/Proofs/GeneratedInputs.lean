import Mathlib.Algebra.Group.Nat.Defs
import Mathlib.Data.Finset.Sort
import ContractAudit.Fuzz.Strategy
import ContractAudit.Proofs.Checked

/-! # Generated inputs

Every draw is in its range, so a mutation with all its checks (`mutate?`: a draw below nothing, a position
outside of the buffer and a value that is no byte stop it) never stops and does what `mutate` does. -/

namespace ContractAudit
open List

namespace Twister
variable {n a b : Nat}

theorem belowFrom_lt (h : 0 < n) (fuel : Nat) (g : Twister) : (g.belowFrom n fuel).1 < n := by
  induction fuel generalizing g with
  | zero => exact h
  | succ fuel ih =>
    unfold belowFrom
    dsimp only
    split
    · assumption
    · exact ih _

theorem below_lt (h : 0 < n) (g : Twister) : (g.below n).1 < n := belowFrom_lt h patience g

theorem between_le (h : a ≤ b) (g : Twister) : a ≤ (g.between a b).1 ∧ (g.between a b).1 ≤ b := by
  have hlt := g.below_lt (n := b - a + 1) (by omega)
  have heq : (g.between a b).1 = a + (g.below (b - a + 1)).1 := rfl
  omega

theorem bits_eight_lt (g : Twister) : (g.bits 8).1 < 256 := by
  have hlt := g.draw.1.toNat_lt
  rw [bits, if_neg (by decide), if_pos (by decide)]
  dsimp only
  rw [Nat.shiftRight_eq_div_pow]
  omega

theorem toNat_byte (g : Twister) : g.byte.1.toNat = (g.bits 8).1 := by
  have heq : g.byte.1 = (g.bits 8).1.toUInt8 := rfl
  rw [heq, UInt8.toNat_ofNat_of_lt' g.bits_eight_lt]

theorem length_bytes (count : Nat) (g : Twister) : (g.bytes count).1.length = count := by
  induction count generalizing g with
  | zero => rfl
  | succ count ih => exact congrArg (· + 1) (ih _)

end Twister

namespace Strategy
variable {data : List UInt8} {least most : Nat} {maxSize : Int}

/-! ### Mutations with their checks -/

def below? (n : Nat) (g : Twister) : Option (Nat × Twister) := if n = 0 then none else some (g.below n)

def between? (a b : Nat) (g : Twister) : Option (Nat × Twister) := if b < a then none else some (g.between a b)

def byte? (g : Twister) : Option (Nat × Twister) := if (g.bits 8).1 < 256 then some (g.bits 8) else none

def store? (data : List Nat) (pos value : Nat) : Option (List Nat) :=
  if pos < data.length ∧ value < 256 then some (data.set pos value) else none

def delete? (data : List Nat) (pos : Nat) : Option (List Nat) :=
  if pos < data.length then some (data.eraseIdx pos) else none

def pack? (number : Nat) : Option (List Nat) :=
  if number ≤ 0xffffffffffffffff then some ((littleEndian 8 number).map UInt8.toNat) else none

def flipBit? (data : List Nat) (g : Twister) : Option (List Nat × Twister) := do
  let pos ← below? data.length g
  let bit ← below? 8 pos.2
  return (← store? data pos.1 ((← data[pos.1]?) ^^^ 1 <<< bit.1), bit.2)

def replaceByte? (data : List Nat) (g : Twister) : Option (List Nat × Twister) := do
  let i ← below? interestingBytes.length g
  let pos ← below? data.length i.2
  return (← store? data pos.1 (← interestingBytes[i.1]?).toNat, pos.2)

def insertByte? (data : List Nat) (g : Twister) : Option (List Nat × Twister) := do
  let pos ← between? 0 data.length g
  let value ← byte? pos.2
  return (data.take pos.1 ++ value.1 :: data.drop pos.1, value.2)

def deleteByte? (data : List Nat) (g : Twister) : Option (List Nat × Twister) := do
  let pos ← below? data.length g
  return (← delete? data pos.1, pos.2)

def writeNumber? (data : List Nat) (g : Twister) : Option (List Nat × Twister) := do
  let i ← below? interestingNumbers.length g
  let pos ← between? 0 data.length i.2
  let packed ← pack? (← interestingNumbers[i.1]?)
  return (data.take pos.1 ++ packed ++ data.drop (pos.1 + 8), pos.2)

def mutate? (data : List Nat) (g : Twister) : Option (List Nat × Twister) := do
  let op ← below? 5 g
  match if data.isEmpty then 2 else op.1 with
  | 0 => flipBit? data op.2
  | 1 => replaceByte? data op.2
  | 2 => insertByte? data op.2
  | 3 => deleteByte? data op.2
  | _ => writeNumber? data op.2

def bytes? : (count : Nat) → Twister → Option (List Nat × Twister)
  | 0, g => some ([], g)
  | n + 1, g => do
    let value ← byte? g
    let rest ← bytes? n value.2
    return (value.1 :: rest.1, rest.2)

def randomInput? (least most : Nat) (g : Twister) : Option (List Nat × Twister) := do
  let size ← between? least most g
  bytes? size.1 size.2

def mutateTimes? : Nat → List Nat → Twister → Option (List Nat × Twister)
  | 0, data, g => some (data, g)
  | n + 1, data, g => do
    let after ← mutate? data g
    mutateTimes? n after.1 after.2

def mutationSeed? (c : Corpus) (g : Twister) : Option (List Nat × Twister) :=
  if c.seeds.isEmpty then randomInput? 1 16 g
  else do
    let i ← below? c.seeds.length g
    return ((← c.seeds[i.1]?).map UInt8.toNat, i.2)

def mutatedInput? (most : Nat) (maxSize : Int) (c : Corpus) (g : Twister) : Option (List Nat × Twister) := do
  let seed ← mutationSeed? c g
  let times ← between? 1 most seed.2
  let after ← mutateTimes? times.1 seed.1 times.2
  return (slice after.1 0 maxSize, after.2)

/-- The bytes as numbers, beside the generator. -/
def numbers (x : List UInt8 × Twister) : List Nat × Twister := (x.1.map UInt8.toNat, x.2)

theorem below?_eq {n : Nat} (h : 0 < n) (g : Twister) : below? n g = some (g.below n) := if_neg (by omega)

theorem between?_eq {a b : Nat} (h : a ≤ b) (g : Twister) : between? a b g = some (g.between a b) := if_neg (by omega)

theorem byte?_eq (g : Twister) : byte? g = some (g.byte.1.toNat, g.byte.2) := by
  rw [byte?, if_pos g.bits_eight_lt, g.toNat_byte]
  rfl

theorem store?_eq {pos : Nat} (h : pos < data.length) (value : UInt8) :
    store? (data.map UInt8.toNat) pos value.toNat = some ((data.set pos value).map UInt8.toNat) := by
  rw [store?, if_pos ⟨by simpa using h, value.toNat_lt⟩, map_set]

theorem toNat_flip (b : UInt8) {bit : Nat} (h : bit < 8) :
    (b ^^^ (1 : UInt8) <<< bit.toUInt8).toNat = b.toNat ^^^ 1 <<< bit := by
  rw [UInt8.toNat_xor, UInt8.toNat_shiftLeft, UInt8.toNat_ofNat_of_lt' (Nat.lt_trans h (by decide)), Nat.mod_eq_of_lt h]
  have hone : ∀ k < 8, 1 <<< k % 2 ^ 8 = 1 <<< k := by decide
  exact congrArg _ (hone bit h)

theorem flipBit?_eq (h : 0 < data.length) (g : Twister) :
    flipBit? (data.map UInt8.toNat) g = some (numbers (flipBit data g)) := by
  have hpos := g.below_lt h
  simp only [flipBit?, flipBit, length_map, below?_eq h, Option.bind_eq_bind, Option.bind_some]
  generalize g.below data.length = pos at hpos ⊢
  have hbit := pos.2.below_lt (n := 8) (by decide)
  simp only [below?_eq (n := 8) (by decide), Option.bind_some]
  generalize pos.2.below 8 = bit at hbit ⊢
  rw [getElem?_map, List.getElem?_eq_getElem hpos, Option.map_some, Option.bind_some, ← toNat_flip _ hbit,
    store?_eq hpos, Option.bind_some, modify_eq_set, List.getElem?_eq_getElem hpos]
  rfl

theorem replaceByte?_eq (h : 0 < data.length) (g : Twister) :
    replaceByte? (data.map UInt8.toNat) g = some (numbers (replaceByte data g)) := by
  have hi := g.below_lt (n := interestingBytes.length) (by decide)
  simp only [replaceByte?, replaceByte, length_map, below?_eq h, Option.bind_eq_bind, Option.bind_some,
    below?_eq (n := interestingBytes.length) (by decide)]
  generalize g.below interestingBytes.length = i at hi ⊢
  have hpos := i.2.below_lt h
  rw [List.getElem?_eq_getElem hi, Option.bind_some, store?_eq hpos, Option.bind_some, getD_eq_getElem?_getD,
    List.getElem?_eq_getElem hi]
  rfl

theorem insertByte?_eq (data : List UInt8) (g : Twister) :
    insertByte? (data.map UInt8.toNat) g = some (numbers (insertByte data g)) := by
  simp only [insertByte?, insertByte, length_map, between?_eq (Nat.zero_le _), byte?_eq, Option.bind_eq_bind,
    Option.bind_some, numbers, map_append, map_cons, map_take, map_drop]
  rfl

theorem deleteByte?_eq (h : 0 < data.length) (g : Twister) :
    deleteByte? (data.map UInt8.toNat) g = some (numbers (deleteByte data g)) := by
  have hpos := g.below_lt h
  simp only [deleteByte?, deleteByte, delete?, length_map, below?_eq h, Option.bind_eq_bind, Option.bind_some,
    if_pos hpos, numbers, eraseIdx_eq_take_drop_succ, map_append, map_take, map_drop]
  rfl

variable (data)

theorem writeNumber?_eq (g : Twister) :
    writeNumber? (data.map UInt8.toNat) g = some (numbers (writeNumber data g)) := by
  have hi := g.below_lt (n := interestingNumbers.length) (by decide)
  simp only [writeNumber?, writeNumber, length_map, between?_eq (Nat.zero_le _), Option.bind_eq_bind,
    Option.bind_some, below?_eq (n := interestingNumbers.length) (by decide)]
  generalize g.below interestingNumbers.length = i at hi ⊢
  have hsmall : ∀ n ∈ interestingNumbers, n ≤ 0xffffffffffffffff := by decide
  rw [getD_eq_getElem?_getD, List.getElem?_eq_getElem hi, Option.bind_some, pack?,
    if_pos (hsmall _ (List.getElem_mem hi))]
  simp [numbers]

theorem mutate?_eq (g : Twister) : mutate? (data.map UInt8.toNat) g = some (numbers (mutate data g)) := by
  simp only [mutate?, mutate, below?_eq (n := 5) (by decide), Option.bind_eq_bind, Option.bind_some, isEmpty_map]
  cases data with
  | nil => exact insertByte?_eq [] _
  | cons b data =>
    have hpos : 0 < (b :: data).length := Nat.succ_pos _
    simp only [isEmpty_cons, Bool.false_eq_true, if_false]
    obtain ⟨op, g⟩ := g.below 5
    rcases op with _ | _ | _ | _ | _
    · exact flipBit?_eq hpos g
    · exact replaceByte?_eq hpos g
    · exact insertByte?_eq _ g
    · exact deleteByte?_eq hpos g
    · exact writeNumber?_eq _ g

theorem mutateTimes?_eq (n : Nat) (data : List UInt8) (g : Twister) :
    mutateTimes? n (data.map UInt8.toNat) g = some (numbers (mutateTimes n data g)) := by
  induction n generalizing data g with
  | zero => rfl
  | succ n ih =>
    rw [mutateTimes?, mutate?_eq, mutateTimes]
    generalize mutate data g = after
    exact ih _ _

theorem bytes?_eq (count : Nat) (g : Twister) : bytes? count g = some (numbers (g.bytes count)) := by
  induction count generalizing g with
  | zero => rfl
  | succ count ih =>
    simp only [bytes?, Twister.bytes, byte?_eq, ih, Option.bind_eq_bind, Option.bind_some]
    rfl

theorem randomInput?_eq (h : least ≤ most) (g : Twister) :
    randomInput? least most g = some (numbers (randomInput least most g)) := by
  rw [randomInput?, between?_eq h, randomInput]
  generalize g.between least most = size
  exact bytes?_eq _ _

theorem mutationSeed?_eq (c : Corpus) (g : Twister) : mutationSeed? c g = some (numbers (mutationSeed c g)) := by
  unfold mutationSeed? mutationSeed Corpus.choice
  split
  · exact randomInput?_eq (by decide) g
  · next hseeds =>
    have hpos : 0 < c.seeds.length := length_pos_iff.mpr fun h => hseeds (List.isEmpty_iff.mpr h)
    have hi := g.below_lt hpos
    rw [below?_eq hpos]
    generalize g.below c.seeds.length = i at hi
    simp only [Option.bind_eq_bind, Option.bind_some, List.getElem?_eq_getElem hi]
    rfl

theorem slice_zero {α : Type} (s : List α) {stop : Int} (h : 0 ≤ stop) : slice s 0 stop = s.take stop.toNat := by
  simp [slice, position, Int.not_lt.mpr h, Nat.min_comm]

theorem mutatedInput?_eq (hmost : 1 ≤ most) (hsize : 0 ≤ maxSize) (c : Corpus) (g : Twister) :
    mutatedInput? most maxSize c g = some (numbers (mutatedInput most (some maxSize) c g)) := by
  rw [mutatedInput?, mutationSeed?_eq, mutatedInput]
  generalize mutationSeed c g = seed
  simp only [Option.bind_eq_bind, Option.bind_some, numbers, between?_eq hmost]
  generalize seed.2.between 1 most = times
  rw [mutateTimes?_eq, Option.bind_some, numbers]
  generalize mutateTimes times.1 seed.1 times.2 = after
  simp [slice_zero _ hsize]

/-! ### Sizes -/

theorem length_littleEndian (width n : Nat) : (littleEndian width n).length = width := by
  induction width generalizing n with
  | zero => rfl
  | succ width ih => exact congrArg (· + 1) (ih _)

theorem length_insertByte (g : Twister) : (insertByte data g).1.length = data.length + 1 := by
  simp only [insertByte, length_append, length_cons, length_take, length_drop]
  omega

theorem length_writeNumber_le (g : Twister) : (writeNumber data g).1.length ≤ data.length + 8 := by
  simp only [writeNumber, length_append, length_take, length_drop, length_littleEndian]
  omega

theorem length_mutate_le (g : Twister) : (mutate data g).1.length ≤ data.length + 8 := by
  have hinsert (g : Twister) : (insertByte data g).1.length ≤ data.length + 8 := by
    rw [length_insertByte]
    omega
  simp only [mutate]
  obtain ⟨op, g⟩ := g.below 5
  split
  · simp only [flipBit, length_modify, Nat.le_add_right]
  · simp only [replaceByte, length_set, Nat.le_add_right]
  · exact hinsert g
  · simp only [deleteByte]
    exact Nat.le_add_right_of_le (length_eraseIdx_le _ _)
  · exact length_writeNumber_le data g

theorem length_mutateTimes_le (n : Nat) (data : List UInt8) (g : Twister) :
    (mutateTimes n data g).1.length ≤ data.length + 8 * n := by
  induction n generalizing data g with
  | zero => exact Nat.le_refl _
  | succ n ih =>
    have hstep := length_mutate_le data g
    rw [mutateTimes]
    generalize mutate data g = after at hstep
    have hrest := ih after.1 after.2
    dsimp only
    omega

theorem length_randomInput (h : least ≤ most) (g : Twister) :
    least ≤ (randomInput least most g).1.length ∧ (randomInput least most g).1.length ≤ most := by
  simp only [randomInput, Twister.length_bytes]
  exact g.between_le h

theorem mutationSeed_cases (c : Corpus) (g : Twister) : (mutationSeed c g).1 ∈ c.seeds ∨
      c.seeds = [] ∧ 1 ≤ (mutationSeed c g).1.length ∧ (mutationSeed c g).1.length ≤ 16 := by
  by_cases hseeds : c.seeds = []
  · rw [mutationSeed, Corpus.choice, hseeds]
    exact .inr ⟨rfl, length_randomInput (by decide) g⟩
  · have hi := g.below_lt (length_pos_iff.mpr hseeds)
    rw [mutationSeed, Corpus.choice, if_neg (fun h => hseeds (List.isEmpty_iff.mp h))]
    generalize g.below c.seeds.length = i at hi
    simp only [List.getElem?_eq_getElem hi]
    exact .inl (List.getElem_mem hi)

theorem length_mutatedInput_le (hmost : 1 ≤ most) (hsize : 0 ≤ maxSize) (c : Corpus) (g : Twister) :
    ((mutatedInput most (some maxSize) c g).1.length : Int) ≤ maxSize ∧
      (mutatedInput most (some maxSize) c g).1.length ≤ (mutationSeed c g).1.length + 8 * most := by
  rw [mutatedInput]
  generalize mutationSeed c g = seed
  have htimes := (seed.2.between_le hmost).2
  dsimp only
  generalize seed.2.between 1 most = times at htimes
  have hlength := length_mutateTimes_le times.1 seed.1 times.2
  generalize mutateTimes times.1 seed.1 times.2 = after at hlength
  simp only [Option.elim_some, slice_zero _ hsize, length_take]
  omega

/-- For every generator, corpus and execution: random bytes are as many as the range of sizes allows, and a
    mutation is at most as long as the greatest size and at most eight bytes a mutation longer than what it
    started from, a seed or up to sixteen random bytes. With all checks on positions and values both do the
    same, so none of them ever fails. A strategy that is asked for less than one mutation makes one. -/
theorem generated_inputs_valid (c : Corpus) (execution : Int) (g : Twister) :
    (∀ least most : Int, 0 ≤ least → least ≤ most → ∃ s input g', randomBytes least most = .ok s ∧
      s.next c execution g = .ok (some input, g') ∧
      randomInput? least.toNat most.toNat g = some (numbers (input, g')) ∧
      least ≤ input.length ∧ input.length ≤ most) ∧
    ∀ maxMutations maxSize : Int, 0 ≤ maxSize → ∃ seed input g', seed = (mutationSeed c g).1 ∧
      (seed ∈ c.seeds ∨ c.seeds = [] ∧ 1 ≤ seed.length ∧ seed.length ≤ 16) ∧
      mutation maxMutations (some maxSize) = mutation (max 1 maxMutations) (some maxSize) ∧
      (mutation maxMutations (some maxSize)).next c execution g = .ok (some input, g') ∧
      mutatedInput? (max 1 maxMutations).toNat maxSize c g = some (numbers (input, g')) ∧
      input.length ≤ maxSize ∧ input.length ≤ seed.length + 8 * max 1 maxMutations := by
  refine ⟨fun least most hleast hmost => ?_, fun maxMutations maxSize hsize => ?_⟩
  · have hsizes : least.toNat ≤ most.toNat := by omega
    have hrange : ¬(decide (least < 0) || decide (most < least)) = true := by
      simp only [Bool.or_eq_true, decide_eq_true_eq]
      omega
    have hlength := length_randomInput hsizes g
    simp only [randomBytes, if_neg hrange]
    refine ⟨_, (randomInput least.toNat most.toNat g).1, (randomInput least.toNat most.toNat g).2, rfl, rfl,
      randomInput?_eq hsizes g, by omega, by omega⟩
  · have hmost : 1 ≤ (max 1 maxMutations).toNat := by omega
    have hseed := mutationSeed_cases c g
    have hlength := length_mutatedInput_le hmost hsize c g
    have hatLeast : mutation maxMutations (some maxSize) = mutation (max 1 maxMutations) (some maxSize) := by
      rw [mutation, mutation, ← Int.max_assoc, Int.max_self]
    simp only [mutation, mutatedInput?_eq hmost hsize]
    generalize mutatedInput (max 1 maxMutations).toNat (some maxSize) c g = made at hlength
    exact ⟨_, made.1, made.2, rfl, hseed, hatLeast, rfl, rfl, hlength.1, by omega⟩

/-- One mutation of the empty seed, which can only grow. -/
theorem generated_inputs_valid_emptySeed :
    (∃ s input g', randomBytes 2 5 = .ok s ∧ s.next {} 0 ⟨#[], 0⟩ = .ok (some input, g') ∧ 2 ≤ input.length) ∧
      ∃ input g', (mutation 0 (some 3)).next { seeds := [[]] } 7 ⟨#[], 0⟩ = .ok (some input, g') ∧
        input.length ≤ 3 := by
  constructor
  · obtain ⟨s, input, g', hs, hnext, -, hlength, -⟩ :=
      (generated_inputs_valid {} 0 ⟨#[], 0⟩).1 2 5 (by decide) (by decide)
    exact ⟨s, input, g', hs, hnext, by omega⟩
  · obtain ⟨_, input, g', -, -, -, hnext, -, hlength, -⟩ :=
      (generated_inputs_valid { seeds := [[]] } 7 ⟨#[], 0⟩).2 0 3 (by decide)
    exact ⟨input, g', hnext, by omega⟩

/-! ### Numbers at the bounds -/

variable {lead : List UInt8} {w n : Nat}

/-- The number that bytes stand for, the least of them first. -/
def littleEndianValue : List UInt8 → Nat
  | [] => 0
  | b :: s => b.toNat + 256 * littleEndianValue s

theorem littleEndianValue_littleEndian (h : n < 256 ^ w) : littleEndianValue (littleEndian w n) = n := by
  induction w generalizing n with
  | zero =>
    rw [Nat.pow_zero] at h
    exact (Nat.lt_one_iff.mp h).symm
  | succ w ih =>
    have hrest : n / 256 < 256 ^ w := Nat.div_lt_of_lt_mul (by rwa [Nat.mul_comm, ← Nat.pow_succ])
    have hbyte : n.toUInt8.toNat = n % 256 := UInt8.toNat_ofNat'
    rw [littleEndian, littleEndianValue, ih hrest, hbyte]
    exact Nat.mod_add_div n 256

/-- The powers at the bounds are half of what a width can hold, and all of it. -/
theorem exists_half (h : 0 < w) :
    ∃ half, 128 ≤ half ∧ 2 ^ (8 * w - 1) = half ∧ 2 ^ (8 * w) = 2 * half ∧ 256 ^ w = 2 * half := by
  have hall : 2 ^ (8 * w) = 2 * 2 ^ (8 * w - 1) := by
    rw [← Nat.pow_succ', Nat.succ_eq_add_one, Nat.sub_add_cancel (by omega)]
  refine ⟨_, ?_, rfl, hall, ?_⟩
  · exact Nat.pow_le_pow_right (show 0 < 2 by decide) (show 7 ≤ 8 * w - 1 by omega)
  · rw [← hall, Nat.pow_mul]

theorem boundaryNumbers_eq (w : Nat) : boundaryNumbers w =
    [0, 1, 2 ^ (8 * w - 1) - 1, 2 ^ (8 * w - 1), 2 ^ (8 * w) - 2, 2 ^ (8 * w) - 1] := rfl

theorem pairwise_boundaryNumbers (h : 0 < w) : (boundaryNumbers w).Pairwise (· < ·) := by
  obtain ⟨half, hle, hhalf, hall, -⟩ := exists_half h
  rw [boundaryNumbers_eq, hhalf, hall]
  simp only [pairwise_cons, mem_cons, not_mem_nil, or_false]
  grind

theorem lt_of_mem_boundaryNumbers (h : 0 < w) (hn : n ∈ boundaryNumbers w) : n < 256 ^ w := by
  obtain ⟨half, hle, hhalf, hall, hpow⟩ := exists_half h
  rw [boundaryNumbers_eq, hhalf, hall] at hn
  rw [hpow]
  simp only [mem_cons, not_mem_nil, or_false] at hn
  omega

/-! ### Building with its checks -/

def toBytes (w n : Nat) : Except Fault (List UInt8) :=
  if n < 256 ^ w then .ok (littleEndian w n) else .error ⟨"OverflowError", "int too big to convert"⟩

def boundarySet (w : Nat) : Finset Nat :=
  {0, 1, 2 ^ (8 * w - 1) - 1, 2 ^ (8 * w - 1), 2 ^ (8 * w) - 2, 2 ^ (8 * w) - 1}

/-- The inputs for some widths, with the numbers sorted and each written only if it fits. -/
def builtInputs (lead : List UInt8) (widths : List Nat) : Except Fault (List (List UInt8)) := do
  return (← widths.mapM fun w => (boundarySet w).sort.mapM fun n => do return lead ++ (← toBytes w n)).flatten

theorem sort_boundarySet (h : 0 < w) : (boundarySet w).sort = boundaryNumbers w := by
  have hlt := pairwise_boundaryNumbers h
  have hset : boundarySet w = (boundaryNumbers w).toFinset := by
    rw [boundaryNumbers_eq, boundarySet]
    simp
  rw [hset, toFinset_sort _ (hlt.imp Nat.ne_of_lt)]
  exact hlt.imp Nat.le_of_lt

theorem mapM_ok {ε α β : Type} {f : α → Except ε β} {g : α → β} {as : List α} (h : ∀ a ∈ as, f a = .ok (g a)) :
    as.mapM f = .ok (as.map g) :=
  mapM_eq_ok.mpr (forall₂_map_right_iff.mpr (forall₂_same.mpr h))

theorem builtInputs_eq {widths : List Nat} (h : ∀ w ∈ widths, 0 < w) (lead : List UInt8) :
    builtInputs lead widths = .ok (widths.flatMap (boundaryInputs lead)) := by
  have hwidth (w : Nat) (hw : w ∈ widths) :
      ((boundarySet w).sort.mapM fun n => do return lead ++ (← toBytes w n)) = .ok (boundaryInputs lead w) := by
    rw [sort_boundarySet (h w hw)]
    refine mapM_ok fun n hn => ?_
    rw [toBytes, if_pos (lt_of_mem_boundaryNumbers (h w hw) hn)]
    rfl
  rw [builtInputs, mapM_ok hwidth]
  rfl

/-! ### The inputs of a strategy -/

theorem getElem?_flatMap_six {α β : Type} {f : α → List β} {as : List α} (h : ∀ a ∈ as, (f a).length = 6)
    {k j : Nat} (hj : j < 6) :
    (as.flatMap f)[6 * k + j]? = as[k]?.bind fun a => (f a)[j]? := by
  induction as generalizing k with
  | nil => rfl
  | cons a as ih =>
    have ha := h a mem_cons_self
    cases k with
    | zero => simp [getElem?_append, ha, hj]
    | succ k =>
      rw [flatMap_cons, getElem?_append_right (by omega), ha, show 6 * (k + 1) + j - 6 = 6 * k + j by omega,
        ih fun a' ha' => h a' (mem_cons_of_mem _ ha')]
      rfl

theorem length_boundaryInputs (lead : List UInt8) (w : Nat) : (boundaryInputs lead w).length = 6 := rfl

theorem nodup_boundaryInputs (h : 0 < w) (lead : List UInt8) : (boundaryInputs lead w).Nodup := by
  refine Nodup.map_on ?_ ((pairwise_boundaryNumbers h).imp Nat.ne_of_lt)
  intro m hm n hn heq
  have hbytes := append_cancel_left heq
  rw [← littleEndianValue_littleEndian (lt_of_mem_boundaryNumbers h hm), hbytes,
    littleEndianValue_littleEndian (lt_of_mem_boundaryNumbers h hn)]

theorem nodup_flatMap_boundaryInputs {widths : List Nat} (h : ∀ w ∈ widths, 0 < w) (hdistinct : widths.Nodup)
    (lead : List UInt8) :
    (widths.flatMap (boundaryInputs lead)).Nodup := by
  refine nodup_flatMap.mpr ⟨fun w hw => nodup_boundaryInputs (h w hw) lead, hdistinct.imp fun hne => ?_⟩
  -- inputs of two widths have two lengths
  intro input hv hw
  obtain ⟨m, -, rfl⟩ := mem_map.mp hv
  obtain ⟨n, -, heq⟩ := mem_map.mp hw
  have hlength := congrArg List.length (append_cancel_left heq)
  rw [length_littleEndian, length_littleEndian] at hlength
  exact hne hlength.symm

/-- For all positive widths the strategy is built, and without a number that does not fit; width by width it
    gives the prefix and six numbers in ascending order, each once, and nothing after them. -/
theorem boundary_inputs_exact (widths : List Nat) (hwidths : ∀ w ∈ widths, 0 < w) (lead : List UInt8) :
    ∃ s inputs, boundary (widths.map Int.ofNat) lead = .ok s ∧ builtInputs lead widths = .ok inputs ∧
      inputs.length = 6 * widths.length ∧ (∀ c g (i : Nat), s.next c i g = .ok (inputs[i]?, g)) ∧
      (∀ k w, widths[k]? = some w → ∃ numbers : List Nat,
        numbers = [0, 1, 2 ^ (8 * w - 1) - 1, 2 ^ (8 * w - 1), 2 ^ (8 * w) - 2, 2 ^ (8 * w) - 1] ∧
        numbers.Pairwise (· < ·) ∧ ∀ j n, numbers[j]? = some n → ∃ bytes,
          inputs[6 * k + j]? = some (lead ++ bytes) ∧ bytes.length = w ∧ littleEndianValue bytes = n) ∧
      (widths.Nodup → inputs.Nodup) := by
  have hbad : badWidth? (widths.map Int.ofNat) = none := by
    rw [badWidth?, Option.map_eq_none_iff, find?_eq_none]
    simp only [mem_map, decide_eq_true_eq]
    rintro _ ⟨w, hw, rfl⟩
    have := hwidths w hw
    simp; omega
  have hinputs : (widths.map Int.ofNat).flatMap (fun w => boundaryInputs lead w.toNat) =
      widths.flatMap (boundaryInputs lead) := flatMap_map ..
  rw [boundary, hbad]
  refine ⟨_, _, rfl, builtInputs_eq hwidths lead, ?_, ?_, ?_, fun h => nodup_flatMap_boundaryInputs hwidths h lead⟩
  · simp [length_flatMap, length_boundaryInputs, Nat.mul_comm]
  · intro c g i
    rw [← hinputs]
    simp [inputAt]
  · intro k w hk
    have hw := hwidths w (mem_of_getElem? hk)
    refine ⟨_, rfl, pairwise_boundaryNumbers hw, fun j n hj => ?_⟩
    have hlt : j < 6 := (List.getElem?_eq_some_iff.mp hj).1
    refine ⟨littleEndian w n, ?_, length_littleEndian w n,
      littleEndianValue_littleEndian (lt_of_mem_boundaryNumbers hw (mem_of_getElem? hj))⟩
    rw [getElem?_flatMap_six (fun _ _ => rfl) hlt, hk, Option.bind_some, boundaryInputs, getElem?_map]
    simp only [boundaryNumbers_eq, hj, Option.map_some]

/-- The third number of the second width, and the end after both. -/
theorem boundary_inputs_exact_twoWidths : ∃ s bytes, boundary [1, 2] [0xaa] = .ok s ∧
    (∀ g, s.next {} 8 g = .ok (some ([0xaa] ++ bytes), g) ∧ s.next {} 12 g = .ok (none, g)) ∧
    bytes.length = 2 ∧ littleEndianValue bytes = 0x7fff := by
  obtain ⟨s, inputs, hs, -, hlength, hnext, hnumbers, -⟩ := boundary_inputs_exact [1, 2] (by decide) [0xaa]
  obtain ⟨_, rfl, -, hinput⟩ := hnumbers 1 2 rfl
  obtain ⟨bytes, hbytes, hwidth, hvalue⟩ := hinput 2 0x7fff rfl
  refine ⟨s, bytes, hs, fun g => ⟨?_, ?_⟩, hwidth, hvalue⟩
  · rw [← hbytes]
    exact hnext {} g 8
  · rw [← getElem?_eq_none (Nat.le_of_eq hlength)]
    exact hnext {} g 12

end Strategy

end ContractAudit
