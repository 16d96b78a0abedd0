import ContractAudit.Text.Quoted

/-! # Secure hashes -/

namespace ContractAudit.Hash

/-- The greatest `r` with `r ^ k ≤ n` that is at least `low` and differs from it in the lowest `bits`
    bits only. -/
def rootFrom (k n : Nat) : (bits low : Nat) → Nat
  | 0, low => low
  | b + 1, low =>
    let high := low + Nat.pow 2 b
    if Nat.pow high k ≤ n then rootFrom k n b high else rootFrom k n b low

/-- The first `w` bits of the fractional part of the `k`-th root of a number below `2 ^ 9`. -/
def rootFraction (k w n : Nat) : BitVec w := BitVec.ofNat w (rootFrom k (n * Nat.pow 2 (k * w)) (w + 9) 0)

def primes : List Nat :=
  ((List.range 410).drop 2).filter fun n => (List.range n).all fun d => d < 2 || n % d != 0

structure Variant (w : Nat) where
  constants : List (BitVec w)
  initial : List (BitVec w)
  upper : Nat × Nat × Nat
  lower : Nat × Nat × Nat
  early : Nat × Nat × Nat
  late : Nat × Nat × Nat

def sha256Variant : Variant 32 where
  constants := (primes.take 64).map (rootFraction 3 32)
  initial := (primes.take 8).map (rootFraction 2 32)
  upper := (2, 13, 22)
  lower := (6, 11, 25)
  early := (7, 18, 3)
  late := (17, 19, 10)

def sha512Variant : Variant 64 where
  constants := (primes.take 80).map (rootFraction 3 64)
  initial := (primes.take 8).map (rootFraction 2 64)
  upper := (28, 34, 39)
  lower := (14, 18, 41)
  early := (1, 8, 7)
  late := (19, 61, 6)

section
variable {w : Nat}

def rotations (r : Nat × Nat × Nat) (x : BitVec w) : BitVec w :=
  x.rotateRight r.1 ^^^ x.rotateRight r.2.1 ^^^ x.rotateRight r.2.2

def rotationsShift (r : Nat × Nat × Nat) (x : BitVec w) : BitVec w :=
  x.rotateRight r.1 ^^^ x.rotateRight r.2.1 ^^^ (x >>> r.2.2)

def schedule (v : Variant w) (block : List (BitVec w)) : List (BitVec w) :=
  ((List.range (v.constants.length - 16)).foldl (fun (ws : Array (BitVec w)) t =>
    ws.push (rotationsShift v.late (ws.getD (t + 14) 0) + ws.getD (t + 9) 0
      + rotationsShift v.early (ws.getD (t + 1) 0) + ws.getD t 0)) block.toArray).toList

def round (v : Variant w) (s : List (BitVec w)) (kw : BitVec w × BitVec w) : List (BitVec w) :=
  match s with
  | [a, b, c, d, e, f, g, h] =>
    let t1 := h + rotations v.lower e + ((e &&& f) ^^^ (~~~e &&& g)) + kw.1 + kw.2
    let t2 := rotations v.upper a + ((a &&& b) ^^^ (a &&& c) ^^^ (b &&& c))
    [t1 + t2, a, b, c, d + t1, e, f, g]
  | _ => s

def compress (v : Variant w) (s : List (BitVec w)) (block : List (BitVec w)) : List (BitVec w) :=
  List.zipWith (· + ·) s ((v.constants.zip (schedule v block)).foldl (round v) s)

def wordOfBytes (bytes : List UInt8) : BitVec w :=
  BitVec.ofNat w (bytes.foldl (fun n b => 256 * n + b.toNat) 0)

def bytesOfNat : (count : Nat) → Nat → List UInt8
  | 0, _ => []
  | c + 1, n => bytesOfNat c (n / 256) ++ [UInt8.ofNat (n % 256)]

def pieces (size : Nat) : (n : Nat) → List UInt8 → List (List UInt8)
  | 0, _ => []
  | n + 1, bytes => bytes.take size :: pieces size n (bytes.drop size)

/-- The message with its end mark and its length in bits, filled up to whole blocks. -/
def padded (w : Nat) (message : List UInt8) : List UInt8 :=
  let block := 2 * w
  let used := message.length + 1 + w / 4
  message ++ 0x80 :: List.replicate ((block - used % block) % block) 0
    ++ bytesOfNat (w / 4) (8 * message.length)

def digest (v : Variant w) (message : List UInt8) : List UInt8 :=
  let bytes := padded w message
  let blocks := pieces (2 * w) (bytes.length / (2 * w)) bytes
  let final := blocks.foldl (fun s b => compress v s ((pieces (w / 8) 16 b).map wordOfBytes)) v.initial
  final.flatMap fun x => bytesOfNat (w / 8) x.toNat

end

def utf8 (s : String) : List UInt8 := s.toUTF8.toList

def hex (bytes : List UInt8) : String :=
  String.ofList (bytes.flatMap fun b => Text.hexDigits 2 b.toNat)

def sha256 (message : List UInt8) : List UInt8 := digest sha256Variant message

def sha512 (message : List UInt8) : List UInt8 := digest sha512Variant message

def shortDigest (s : String) : String := hex ((sha256 (utf8 s)).take 8)

end ContractAudit.Hash
