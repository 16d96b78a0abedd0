import ContractAudit.Hash.Sha2

/-! # The Mersenne twister

A generator of pseudo-random words with a state of 624 words. -/

namespace ContractAudit

/-- The state of a generator: its words, and how many of them have been used up. -/
structure Twister where
  words : Array UInt32
  used : Nat

namespace Twister
variable (g : Twister)

def size : Nat := 624

def shift : Nat := 397

def word (a : Array UInt32) (i : Nat) : UInt32 := a.getD i 0

def ofWord (seed : UInt32) : Array UInt32 :=
  (List.range (size - 1)).foldl (fun a i =>
    let last := word a i
    a.push ((1812433253 : UInt32) * (last ^^^ (last >>> 30)) + (i + 1).toUInt32)) #[seed]

/-- A place in the state after the given one; after the last comes the second, and the first becomes
    a copy of the last. -/
def advance (a : Array UInt32) (i : Nat) : Array UInt32 × Nat :=
  if size ≤ i + 1 then (a.setIfInBounds 0 (word a (size - 1)), 1) else (a, i + 1)

/-- One step of mixing a key into the state, at a place of the state and a place of the key. -/
def mixKey (key : List UInt32) (s : Array UInt32 × Nat × Nat) : Array UInt32 × Nat × Nat :=
  let (a, i, j) := s
  let last := word a (i - 1)
  let mixed := (word a i ^^^ ((last ^^^ (last >>> 30)) * 1664525)) + key.getD j 0 + j.toUInt32
  let (a, i) := advance (a.setIfInBounds i mixed) i
  (a, i, if key.length ≤ j + 1 then 0 else j + 1)

def mixSelf (s : Array UInt32 × Nat) : Array UInt32 × Nat :=
  let (a, i) := s
  let last := word a (i - 1)
  let mixed := (word a i ^^^ ((last ^^^ (last >>> 30)) * 1566083941)) - i.toUInt32
  advance (a.setIfInBounds i mixed) i

def ofKey (key : List UInt32) : Twister :=
  let (a, i, _) := (List.range (max size key.length)).foldl (fun s _ => mixKey key s)
    (ofWord 19650218, 1, 0)
  let (a, _) := (List.range (size - 1)).foldl (fun s _ => mixSelf s) (a, i)
  ⟨a.setIfInBounds 0 0x80000000, size⟩

def wordsOf : (fuel : Nat) → Nat → List UInt32
  | 0, _ => []
  | fuel + 1, n =>
    let high := n / 0x100000000
    n.toUInt32 :: if high = 0 then [] else wordsOf fuel high

def ofNat (n : Nat) : Twister := ofKey (wordsOf (n.log2 + 1) n)

def ofInt (n : Int) : Twister := ofNat n.natAbs

/-- The generator of a text: of the number that its bytes and their hash are. -/
def ofText (s : String) : Twister :=
  let bytes := Hash.utf8 s
  ofNat ((bytes ++ Hash.sha512 bytes).foldl (fun n b => n * 256 + b.toNat) 0)

def twistAt (a : Array UInt32) (i : Nat) : Array UInt32 :=
  let y := (word a i &&& 0x80000000) ||| (word a ((i + 1) % size) &&& 0x7fffffff)
  let mag : UInt32 := if y &&& 1 = 0 then 0 else 0x9908b0df
  a.setIfInBounds i (word a ((i + shift) % size) ^^^ (y >>> 1) ^^^ mag)

def refill : Twister :=
  if g.used < size then g else ⟨(List.range size).foldl twistAt g.words, 0⟩

def temper (y : UInt32) : UInt32 :=
  let y := y ^^^ (y >>> 11)
  let y := y ^^^ ((y <<< 7) &&& 0x9d2c5680)
  let y := y ^^^ ((y <<< 15) &&& 0xefc60000)
  y ^^^ (y >>> 18)

def draw : UInt32 × Twister :=
  let g := g.refill
  (temper (word g.words g.used), { g with used := g.used + 1 })

def bits (k : Nat) (g : Twister) : Nat × Twister :=
  if k = 0 then (0, g)
  else if k ≤ 32 then
    let (w, g) := g.draw
    (w.toNat >>> (32 - k), g)
  else
    let (w, g) := g.draw
    let (high, g) := bits (k - 32) g
    (high * 0x100000000 + w.toNat, g)

def bitLength (n : Nat) : Nat := if n = 0 then 0 else n.log2 + 1

/-- How often a draw that is too large is repeated. Each repetition is needed with a probability of
    less than one half. -/
def patience : Nat := 10000

/-- A number below `n`: numbers of as many bits are drawn until one is small enough. -/
def belowFrom (n : Nat) : (fuel : Nat) → Twister → Nat × Twister
  | 0, g => (0, g)
  | fuel + 1, g =>
    let (r, g) := g.bits (bitLength n)
    if r < n then (r, g) else belowFrom n fuel g

def below (n : Nat) (g : Twister) : Nat × Twister := belowFrom n patience g

def between (a b : Nat) (g : Twister) : Nat × Twister :=
  let (r, g) := g.below (b - a + 1)
  (a + r, g)

def byte : UInt8 × Twister :=
  let (n, g) := g.bits 8
  (n.toUInt8, g)

def bytes : (count : Nat) → Twister → List UInt8 × Twister
  | 0, g => ([], g)
  | n + 1, g =>
    let (b, g) := g.byte
    let (s, g) := bytes n g
    (b :: s, g)

end Twister

end ContractAudit
