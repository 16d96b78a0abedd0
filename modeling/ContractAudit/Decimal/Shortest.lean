/-! # Decimal texts of binary floating point numbers -/

namespace ContractAudit.Decimal

/-- A positive finite double: the value `mantissa * 2 ^ exponent`. A double at a power of two has its
    lower neighbour at half the distance. -/
structure Binary where
  mantissa : Nat
  exponent : Int
  narrowBelow : Bool

def Binary.ofBits (bits : Nat) : Binary :=
  let e : Nat := bits / 0x10000000000000 % 0x800
  let f : Nat := bits % 0x10000000000000
  if e = 0 then ⟨f, -1074, false⟩ else ⟨f + 0x10000000000000, (e : Int) - 1075, f == 0 && e != 1⟩

structure Fraction where
  num : Nat
  den : Nat

def Fraction.ofBinary (n : Nat) (q : Int) : Fraction :=
  if q < 0 then ⟨n, Nat.pow 2 (-q).toNat⟩ else ⟨n * Nat.pow 2 q.toNat, 1⟩

def Fraction.shift (x : Fraction) (k : Int) : Fraction :=
  if k < 0 then ⟨x.num * Nat.pow 10 (-k).toNat, x.den⟩
  else ⟨x.num, x.den * Nat.pow 10 k.toNat⟩

def digitCount (n : Nat) : Nat := if n = 0 then 0 else (Nat.toDigits 10 n).length

/-- How many tenfold steps bring a fraction below one up to at least a tenth, at most `fuel`. -/
def leadingZeros : (fuel : Nat) → Fraction → Nat
  | 0, _ => 0
  | fuel + 1, x =>
    if x.den ≤ 10 * x.num then 0 else leadingZeros fuel ⟨10 * x.num, x.den⟩ + 1

/-- The exponent `k` with `10 ^ (k - 1) ≤ x < 10 ^ k`. -/
def magnitude (x : Fraction) : Int :=
  if x.den ≤ x.num then digitCount (x.num / x.den) else -(leadingZeros 400 x : Int)

/-- A decimal: the value `digits * 10 ^ exponent`. -/
structure Digits where
  digits : Nat
  exponent : Int

/-- The interval of numbers that round to a double, as quarters of its last place. -/
def roundsTo (b : Binary) (x : Fraction) : Bool :=
  let low := Fraction.ofBinary (4 * b.mantissa - if b.narrowBelow then 1 else 2) (b.exponent - 2)
  let high := Fraction.ofBinary (4 * b.mantissa + 2) (b.exponent - 2)
  if b.mantissa % 2 = 0 then
    low.num * x.den ≤ x.num * low.den && x.num * high.den ≤ high.num * x.den
  else low.num * x.den < x.num * low.den && x.num * high.den < high.num * x.den

/-- The decimal nearest to the value, of those on the grid of `10 ^ unit` that round to it. -/
def nearestOnGrid? (b : Binary) (unit : Int) : Option Digits :=
  let value := (Fraction.ofBinary b.mantissa b.exponent).shift unit
  let below := value.num / value.den
  let onGrid (n : Nat) : Fraction := (Fraction.mk n 1).shift (-unit)
  let low := roundsTo b (onGrid below)
  let high := roundsTo b (onGrid (below + 1))
  let twice := 2 * (value.num % value.den)
  let lowNearer := twice < value.den || (twice = value.den && below % 2 = 0)
  if low && (lowNearer || !high) then some ⟨below, unit⟩
  else if high then some ⟨below + 1, unit⟩
  else none

def shortestFrom (b : Binary) (k : Int) : (fuel n : Nat) → Digits
  | 0, n => (nearestOnGrid? b (k - n)).getD ⟨b.mantissa, b.exponent⟩
  | fuel + 1, n => match nearestOnGrid? b (k - n) with
    | some d => d
    | none => shortestFrom b k fuel (n + 1)

def shortest (b : Binary) : Digits :=
  shortestFrom b (magnitude (Fraction.ofBinary b.mantissa b.exponent)) 17 1

def significant (n : Nat) : List Char :=
  ((Nat.toDigits 10 n).reverse.dropWhile (· == '0')).reverse

def twoDigits (n : Nat) : List Char :=
  let ds := Nat.toDigits 10 n
  if ds.length < 2 then '0' :: ds else ds

/-- The decimal text of digits `ds`, read as `0.ds * 10 ^ point`: positional if the first digit stands
    for less than `10 ^ 16` and at least `10 ^ -4`, with one place at least; else with an exponent. -/
def layOut (ds : List Char) (point : Int) : List Char :=
  if -4 < point && point ≤ 16 then
    if point ≤ 0 then '0' :: '.' :: List.replicate (-point).toNat '0' ++ ds
    else
      let n := point.toNat
      if ds.length ≤ n then ds ++ List.replicate (n - ds.length) '0' ++ ['.', '0']
      else ds.take n ++ '.' :: ds.drop n
  else
    let e := point - 1
    let lead := match ds with
      | [d] => [d]
      | d :: r => d :: '.' :: r
      | [] => ['0']
    lead ++ 'e' :: (if e < 0 then '-' else '+') :: twoDigits e.natAbs

def absoluteBits (x : Float) : Nat := x.toBits.toNat % 0x8000000000000000

def isNegative (x : Float) : Bool := 0x8000000000000000 ≤ x.toBits.toNat

def text (x : Float) : String :=
  let bits := absoluteBits x
  let sign := if isNegative x then "-" else ""
  if 0x7ff0000000000000 < bits then "nan"
  else if bits = 0x7ff0000000000000 then sign ++ "inf"
  else if bits = 0 then sign ++ "0.0"
  else
    let d := shortest (Binary.ofBits bits)
    let all := Nat.toDigits 10 d.digits
    sign ++ String.ofList (layOut (significant d.digits) (d.exponent + all.length))

def roundHalfEven (x : Fraction) : Nat :=
  let below := x.num / x.den
  let twice := 2 * (x.num % x.den)
  if twice < x.den || (twice = x.den && below % 2 = 0) then below else below + 1

def fixedText (places : Nat) (x : Float) : String :=
  let bits := absoluteBits x
  let sign := if isNegative x then "-" else ""
  if 0x7ff0000000000000 < bits then "nan"
  else if bits = 0x7ff0000000000000 then sign ++ "inf"
  else
    let b := Binary.ofBits bits
    let n := roundHalfEven ((Fraction.ofBinary b.mantissa b.exponent).shift (-(places : Int)))
    let ds := Nat.toDigits 10 n
    let ds := List.replicate (places + 1 - ds.length) '0' ++ ds
    let whole := ds.length - places
    sign ++ String.ofList (ds.take whole ++ '.' :: ds.drop whole)

def truncate? (x : Float) : Option Int :=
  let bits := absoluteBits x
  if 0x7ff0000000000000 ≤ bits then none
  else
    let b := Binary.ofBits bits
    let v := Fraction.ofBinary b.mantissa b.exponent
    let n : Int := (v.num / v.den : Nat)
    some (if isNegative x then -n else n)

end ContractAudit.Decimal
