/-! # Bytes in base 64 -/

namespace ContractAudit.Text.Base64

def value? (c : Char) : Option Nat :=
  if c.isUpper then some (c.toNat - 65)
  else if c.isLower then some (c.toNat - 71)
  else if c.isDigit then some (c.toNat + 4)
  else if c == '+' then some 62
  else if c == '/' then some 63
  else none

def digit (n : Nat) : Char :=
  if n < 26 then Char.ofNat (n + 65)
  else if n < 52 then Char.ofNat (n + 71)
  else if n < 62 then Char.ofNat (n - 4)
  else if n == 62 then '+' else '/'

/-- The bytes of a text, if it is complete. Of the group being read `count` characters are known,
    `low` holds the bits of them that belong to the next byte, and `fills` equals signs have come
    since. -/
def decodeFrom (count low fills : Nat) : List Char → Option (List UInt8)
  | [] => if count = 0 then some [] else none
  | c :: s =>
    if c == '=' then
      if count < 2 then decodeFrom count low fills s
      else if 4 ≤ count + (fills + 1) then some []
      else decodeFrom count low (fills + 1) s
    else match value? c with
      | none => decodeFrom count low fills s
      | some v => match count with
        | 0 => decodeFrom 1 v 0 s
        | 1 => (decodeFrom 2 (v % 16) 0 s).map (UInt8.ofNat (low * 4 + v / 16) :: ·)
        | 2 => (decodeFrom 3 (v % 4) 0 s).map (UInt8.ofNat (low * 16 + v / 4) :: ·)
        | _ => (decodeFrom 0 0 0 s).map (UInt8.ofNat (low * 64 + v) :: ·)

def decode? (s : List Char) : Option (List UInt8) := decodeFrom 0 0 0 s

def encode : List UInt8 → List Char
  | a :: b :: c :: s =>
    let n := (a.toNat * 256 + b.toNat) * 256 + c.toNat
    digit (n / 262144) :: digit (n / 4096 % 64) :: digit (n / 64 % 64) :: digit (n % 64) :: encode s
  | [a, b] =>
    let n := (a.toNat * 256 + b.toNat) * 4
    [digit (n / 4096), digit (n / 64 % 64), digit (n % 64), '=']
  | [a] => [digit (a.toNat / 4), digit (a.toNat * 16 % 64), '=', '=']
  | [] => []

def lineBytes : Nat := 57

def linesFrom : (fuel : Nat) → List UInt8 → List Char
  | 0, _ => []
  | fuel + 1, bs =>
    if bs.isEmpty then [] else encode (bs.take lineBytes) ++ '\n' :: linesFrom fuel (bs.drop lineBytes)

def lines (bs : List UInt8) : List Char := linesFrom bs.length bs

end ContractAudit.Text.Base64
