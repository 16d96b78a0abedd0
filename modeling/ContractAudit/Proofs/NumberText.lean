import ContractAudit.Proofs.DecimalReading
import ContractAudit.Value.JsonReader

/-! # Numbers read back

A number is read up to the first character that cannot belong to it. An integer reads back as itself, and so
does a finite double, whichever way its digits are laid out. -/

namespace ContractAudit.Decimal
open Rounding Binary

def Fraction.value (x : Fraction) : ℚ := x.num / x.den

namespace Fraction

variable {x y : Fraction}

theorem le_iff (hx : 0 < x.den) (hy : 0 < y.den) : x.num * y.den ≤ y.num * x.den ↔ x.value ≤ y.value := by
  have hx' : (0 : ℚ) < x.den := by exact_mod_cast hx
  have hy' : (0 : ℚ) < y.den := by exact_mod_cast hy
  rw [value, value, div_le_div_iff₀ hx' hy']
  exact_mod_cast Iff.rfl

theorem lt_iff (hx : 0 < x.den) (hy : 0 < y.den) : x.num * y.den < y.num * x.den ↔ x.value < y.value := by
  rw [← not_le, ← not_le, ← le_iff hy hx]

theorem den_ofBinary (n : ℕ) (q : ℤ) : 0 < (ofBinary n q).den := by
  unfold ofBinary
  split
  · exact Nat.pow_pos (by decide)
  · exact Nat.one_pos

theorem value_ofBinary (n : ℕ) (q : ℤ) : (ofBinary n q).value = n * 2 ^ q := by
  unfold ofBinary
  split
  next h =>
    obtain ⟨k, rfl⟩ : ∃ k : ℕ, q = -k := ⟨(-q).toNat, by omega⟩
    simp [value, div_eq_mul_inv]
  next h =>
    obtain ⟨k, rfl⟩ : ∃ k : ℕ, q = k := ⟨q.toNat, by omega⟩
    simp [value]

theorem den_shift (hx : 0 < x.den) (k : ℤ) : 0 < (x.shift k).den := by
  unfold shift
  split
  · exact hx
  · exact Nat.mul_pos hx (Nat.pow_pos (by decide))

theorem value_shift (x : Fraction) (k : ℤ) : (x.shift k).value = x.value / 10 ^ k := by
  unfold shift
  split
  next h =>
    obtain ⟨n, rfl⟩ : ∃ n : ℕ, k = -n := ⟨(-k).toNat, by omega⟩
    simp [value]
    ring
  next h =>
    obtain ⟨n, rfl⟩ : ∃ n : ℕ, k = n := ⟨k.toNat, by omega⟩
    simp [value]
    ring

end Fraction

theorem value_onGrid (n : ℕ) (unit : ℤ) : ((Fraction.mk n 1).shift (-unit)).value = n * 10 ^ unit := by
  rw [Fraction.value_shift, zpow_neg, div_inv_eq_mul]
  simp [Fraction.value]

/-- The parts of a double, marked if its neighbour below is nearer. -/
structure Binary.Sound (b : Binary) : Prop where
  canonical : Canonical b.mantissa b.exponent
  narrow : b.narrowBelow = true ↔ b.mantissa = 2 ^ 52 ∧ -1074 < b.exponent

theorem sound_ofBits {bits : ℕ} (hc : Canonical (ofBits bits).mantissa (ofBits bits).exponent) :
    (ofBits bits).Sound := by
  refine ⟨hc, ?_⟩
  by_cases h : bits / 2 ^ 52 % 2 ^ 11 = 0
  · rw [ofBits_subnormal h]
    have hf : bits % 2 ^ 52 < 2 ^ 52 := Nat.mod_lt _ (by decide)
    simp only [Bool.false_eq_true, false_iff, not_and]
    omega
  · rw [ofBits_normal h]
    simp only [Bool.and_eq_true, beq_iff_eq, bne_iff_ne]
    omega

def Binary.low (b : Binary) : ℚ := b.mantissa - if b.narrowBelow then 1 / 4 else 1 / 2

variable {b : Binary} {x : Fraction}

theorem roundsTo_iff (hM : 0 < b.mantissa) (hx : 0 < x.den) : roundsTo b x = true ↔ if b.mantissa % 2 = 0 then
      b.low ≤ x.value / 2 ^ b.exponent ∧ x.value / 2 ^ b.exponent ≤ b.mantissa + 1 / 2
    else b.low < x.value / 2 ^ b.exponent ∧ x.value / 2 ^ b.exponent < b.mantissa + 1 / 2 := by
  have hE := two_zpow_pos b.exponent
  have hquarter : (2 : ℚ) ^ (b.exponent - 2) = 2 ^ b.exponent / 4 := by
    rw [zpow_sub₀ (by norm_num)]
    norm_num
  have hlow : (Fraction.ofBinary (4 * b.mantissa - if b.narrowBelow then 1 else 2) (b.exponent - 2)).value =
      b.low * 2 ^ b.exponent := by
    rw [Fraction.value_ofBinary, hquarter, low]
    cases b.narrowBelow
    · rw [if_neg (by decide), if_neg (by decide), Nat.cast_sub (by omega)]
      push_cast
      ring
    · rw [if_pos rfl, if_pos rfl, Nat.cast_sub (by omega)]
      push_cast
      ring
  have hhigh : (Fraction.ofBinary (4 * b.mantissa + 2) (b.exponent - 2)).value =
      (b.mantissa + 1 / 2) * 2 ^ b.exponent := by
    rw [Fraction.value_ofBinary, hquarter]
    push_cast
    ring
  rw [roundsTo]
  split
  · rw [Bool.and_eq_true, decide_eq_true_eq, decide_eq_true_eq, Fraction.le_iff (Fraction.den_ofBinary ..) hx,
      Fraction.le_iff hx (Fraction.den_ofBinary ..), hlow, hhigh, le_div_iff₀ hE, div_le_iff₀ hE]
  · rw [Bool.and_eq_true, decide_eq_true_eq, decide_eq_true_eq, Fraction.lt_iff (Fraction.den_ofBinary ..) hx,
      Fraction.lt_iff hx (Fraction.den_ofBinary ..), hlow, hhigh, lt_div_iff₀ hE, div_lt_iff₀ hE]

theorem roundsTo_sound (hb : b.Sound) (hx : 0 < x.den) (h : roundsTo b x = true) :
    RoundsTo x.value b.mantissa b.exponent := by
  rw [roundsTo_iff hb.canonical.pos hx, low] at h
  by_cases hn : b.narrowBelow = true
  · obtain ⟨hM, hE⟩ := hb.narrow.mp hn
    rw [if_pos hn, hM, if_pos (by decide)] at h
    push_cast at h
    refine ⟨⟨?_, ?_, fun _ => by rw [hM]; decide⟩, fun _ _ => h.1⟩
    · rw [hM]
      push_cast
      linarith [h.1]
    · rw [hM]
      push_cast
      exact h.2
  · rw [if_neg hn] at h
    refine ⟨?_, fun hM hE => absurd (hb.narrow.mpr ⟨hM, hE⟩) hn⟩
    split at h
    next heven => exact ⟨h.1, h.2, fun _ => heven⟩
    next => exact ⟨h.1.le, h.2.le, fun hy => by rcases hy with hy | hy <;> linarith [h.1, h.2]⟩

theorem roundsTo_of_close (hM : 0 < b.mantissa) (hx : 0 < x.den)
    (hlow : (b.mantissa - 1 / 4) * 2 ^ b.exponent < x.value) (hhigh : x.value ≤ b.mantissa * 2 ^ b.exponent) :
    roundsTo b x = true := by
  have hE := two_zpow_pos b.exponent
  rw [← lt_div_iff₀ hE] at hlow
  rw [← div_le_iff₀ hE] at hhigh
  have hend : b.low ≤ b.mantissa - 1 / 4 := by
    rw [low]
    split <;> linarith
  rw [roundsTo_iff hM hx]
  split
  · exact ⟨by linarith, by linarith⟩
  · exact ⟨by linarith, by linarith⟩

theorem nearestOnGrid?_sound (hb : b.Sound) {unit : ℤ} {d : Digits} (h : nearestOnGrid? b unit = some d) :
    RoundsTo (d.digits * 10 ^ d.exponent) b.mantissa b.exponent := by
  have hgrid {n : ℕ} (hn : roundsTo b ((Fraction.mk n 1).shift (-unit)) = true) :
      RoundsTo (n * 10 ^ unit) b.mantissa b.exponent := by
    rw [← value_onGrid]
    exact roundsTo_sound hb (Fraction.den_shift Nat.one_pos _) hn
  rw [nearestOnGrid?] at h
  split at h
  next hlow =>
    cases h
    exact hgrid (Bool.and_eq_true_iff.mp hlow).1
  next =>
    split at h
    next hhigh =>
      cases h
      exact hgrid hhigh
    next => cases h

/-- Something is found on a grid that is finer than a quarter of the last place. -/
theorem exists_nearestOnGrid? (hM : 0 < b.mantissa) {unit : ℤ} (h : (10 : ℚ) ^ unit ≤ 2 ^ b.exponent / 4) :
    ∃ d, nearestOnGrid? b unit = some d := by
  have hten : (0 : ℚ) < 10 ^ unit := by positivity
  obtain ⟨value, hvalue⟩ : ∃ value, value = (Fraction.ofBinary b.mantissa b.exponent).shift unit := ⟨_, rfl⟩
  have hden : 0 < value.den := hvalue ▸ Fraction.den_shift (Fraction.den_ofBinary ..) _
  have hden' : (0 : ℚ) < value.den := by exact_mod_cast hden
  have hquotient : (value.num / value.den : ℚ) = b.mantissa * 2 ^ b.exponent / 10 ^ unit := by
    rw [← Fraction.value_ofBinary, ← Fraction.value_shift, ← hvalue, Fraction.value]
  obtain ⟨hfloor, hceil⟩ := (approximates_div value.num hden).bounds
  rw [hquotient, le_div_iff₀ hten] at hfloor
  rw [hquotient, div_lt_iff₀ hten] at hceil
  have hbelow : roundsTo b ((Fraction.mk (value.num / value.den) 1).shift (-unit)) = true := by
    refine roundsTo_of_close hM (Fraction.den_shift Nat.one_pos _) ?_ ?_
    · rw [value_onGrid]
      linarith
    · rw [value_onGrid]
      exact hfloor
  rw [nearestOnGrid?, ← hvalue]
  simp only [hbelow, Bool.true_and]
  split
  · exact ⟨_, rfl⟩
  next hnot =>
    simp only [Bool.or_eq_true, Bool.not_eq_true', not_or, Bool.not_eq_false] at hnot
    rw [if_pos hnot.2]
    exact ⟨_, rfl⟩

/-- If the last grid holds a decimal, one of the grids that are tried does. -/
theorem exists_shortestFrom (b : Binary) (k : ℤ) {fuel n : ℕ} {d : Digits}
    (h : nearestOnGrid? b (k - (n + fuel : ℕ)) = some d) :
    ∃ unit, nearestOnGrid? b unit = some (shortestFrom b k fuel n) := by
  induction fuel generalizing n with
  | zero =>
    rw [Nat.add_zero] at h
    exact ⟨k - n, by rw [shortestFrom, h, Option.getD_some]⟩
  | succ fuel ih =>
    rw [shortestFrom]
    split
    next d' hd => exact ⟨_, hd⟩
    next => exact ih (by rwa [Nat.add_right_comm, Nat.add_assoc])

theorem leadingZeros_le (fuel : ℕ) (x : Fraction) :
    leadingZeros fuel x = fuel ∨ x.den ≤ 10 ^ (leadingZeros fuel x + 1) * x.num := by
  induction fuel generalizing x with
  | zero => exact .inl rfl
  | succ fuel ih =>
    rw [leadingZeros]
    split
    next h => exact .inr (by simpa using h)
    next =>
      refine (ih ⟨10 * x.num, x.den⟩).imp (fun h => by rw [h]) fun h => ?_
      refine h.trans (le_of_eq ?_)
      rw [Nat.pow_succ 10 (leadingZeros fuel ⟨10 * x.num, x.den⟩ + 1)]
      ring

theorem ten_zpow_magnitude_le {x : Fraction} (hx : 0 < x.den) (hlow : 2 ^ (-1074 : ℤ) ≤ x.value) :
    (10 : ℚ) ^ (magnitude x - 1) ≤ x.value := by
  have hden : (0 : ℚ) < x.den := by exact_mod_cast hx
  rw [magnitude]
  split
  next h =>
    have hpos : 0 < x.num / x.den := Nat.div_pos h hx
    have hfloor := (approximates_div x.num hx).bounds.1
    have hcast : ((digitCount (x.num / x.den) : ℤ) - 1) = (digitCount (x.num / x.den) - 1 : ℕ) := by
      have := digitCount_pos hpos
      omega
    rw [hcast, zpow_natCast]
    calc (10 : ℚ) ^ (digitCount (x.num / x.den) - 1) ≤ (x.num / x.den : ℕ) := by exact_mod_cast pow_digitCount_le hpos
      _ ≤ x.value := hfloor
  next h =>
    rcases leadingZeros_le 400 x with hfuel | hstop
    · rw [hfuel]
      exact ((ten_zpow_neg_le 401).trans (two_zpow_le (by decide))).trans hlow
    · have hcast : -(leadingZeros 400 x : ℤ) - 1 = -((leadingZeros 400 x + 1 : ℕ) : ℤ) := by omega
      rw [Fraction.value, le_div_iff₀ hden, hcast, zpow_neg, zpow_natCast, inv_mul_le_iff₀ (by positivity)]
      exact_mod_cast hstop

theorem roundsTo_shortest (hb : b.Sound) :
    RoundsTo ((shortest b).digits * 10 ^ (shortest b).exponent) b.mantissa b.exponent := by
  have hM := hb.canonical.pos
  have hE := two_zpow_pos b.exponent
  obtain ⟨k, hk⟩ : ∃ k, k = magnitude (Fraction.ofBinary b.mantissa b.exponent) := ⟨_, rfl⟩
  have hvalue := Fraction.value_ofBinary b.mantissa b.exponent
  have hlow : (2 : ℚ) ^ (-1074 : ℤ) ≤ b.mantissa * 2 ^ b.exponent :=
    calc (2 : ℚ) ^ (-1074 : ℤ) ≤ 2 ^ b.exponent := two_zpow_le hb.canonical.least
      _ ≤ b.mantissa * 2 ^ b.exponent := le_mul_of_one_le_left hE.le (by exact_mod_cast hM)
  have hmagnitude : (10 : ℚ) ^ (k - 1) ≤ b.mantissa * 2 ^ b.exponent := by
    rw [hk, ← hvalue]
    exact ten_zpow_magnitude_le (Fraction.den_ofBinary ..) (hvalue ▸ hlow)
  -- with 18 digits the grid is finer than a quarter of the last place, as 2 ^ 55 < 10 ^ 17
  have hfine : (10 : ℚ) ^ (k - (1 + 17 : ℕ)) ≤ 2 ^ b.exponent / 4 := by
    have hsplit : (10 : ℚ) ^ (k - (1 + 17 : ℕ)) = 10 ^ (k - 1) / 10 ^ 17 := by
      rw [show k - ((1 + 17 : ℕ) : ℤ) = k - 1 - (17 : ℕ) by push_cast; ring, zpow_sub₀ (by norm_num), zpow_natCast]
    have hbound : (b.mantissa * 2 ^ b.exponent : ℚ) ≤ 2 ^ 53 * 2 ^ b.exponent :=
      mul_le_mul_of_nonneg_right (by exact_mod_cast hb.canonical.lt.le) hE.le
    rw [hsplit, div_le_iff₀ (by positivity)]
    linarith
  obtain ⟨d, hd⟩ := exists_nearestOnGrid? hM hfine
  obtain ⟨unit, hunit⟩ := exists_shortestFrom b k hd
  rw [shortest, ← hk]
  exact nearestOnGrid?_sound hb hunit

end ContractAudit.Decimal

namespace ContractAudit.Json
open Rounding Decimal List Decimal
variable (negative : Bool) (n : ℕ) (below : Bool)

/-! ### The parts of a number -/

/-- Nothing follows, or something that does not go on a number. -/
def EndsNumber (rest : List Char) : Prop :=
  ∀ c r, rest = c :: r → c.isDigit = false ∧ c ≠ '.' ∧ c ≠ 'e' ∧ c ≠ 'E'

/-! ### Runs of digits -/

def IsDigits (ds : List Char) : Prop := ∀ c ∈ ds, c.isDigit = true

theorem isDigits_append {ds es : List Char} : IsDigits (ds ++ es) ↔ IsDigits ds ∧ IsDigits es := forall_mem_append

theorem isDigits_toDigits : IsDigits (Nat.toDigits 10 n) :=
  fun _ h => Nat.isDigit_of_mem_toDigits (by decide) (by decide) h

theorem isDigits_zeros : IsDigits (List.replicate n '0') := by
  intro c h
  rw [eq_of_mem_replicate h]
  decide

def EndsDigits (rest : List Char) : Prop := ∀ c r, rest = c :: r → c.isDigit = false

theorem EndsNumber.endsDigits {rest : List Char} (h : EndsNumber rest) : EndsDigits rest := fun c r hr => (h c r hr).1

theorem endsDigits_cons {c : Char} (h : c.isDigit = false) (r : List Char) : EndsDigits (c :: r) := by
  intro c' r' hr
  cases hr
  exact h

theorem takeWhile_digits {ds rest : List Char} (hds : IsDigits ds) (hrest : EndsDigits rest) :
    (ds ++ rest).takeWhile Char.isDigit = ds := by
  rw [takeWhile_append_of_pos hds]
  cases rest with
  | nil => simp
  | cons c r => rw [takeWhile_cons_of_neg (by rw [hrest c r rfl]; decide), append_nil]

theorem dropWhile_digits {ds rest : List Char} (hds : IsDigits ds) (hrest : EndsDigits rest) :
    (ds ++ rest).dropWhile Char.isDigit = rest := by
  rw [dropWhile_append_of_pos hds]
  cases rest with
  | nil => rfl
  | cons c r => rw [dropWhile_cons_of_neg (by rw [hrest c r rfl]; decide)]

theorem splitFraction_point {places rest : List Char} (hplaces : IsDigits places) (hrest : EndsDigits rest) :
    splitFraction ('.' :: (places ++ rest)) = (places, rest) := by
  rw [splitFraction, takeWhile_digits hplaces hrest, dropWhile_digits hplaces hrest]

theorem splitFraction_none {rest : List Char} (h : ∀ r, rest ≠ '.' :: r) : splitFraction rest = ([], rest) := by
  unfold splitFraction
  split
  next r => exact absurd rfl (h r)
  next => rfl

theorem EndsNumber.splitFraction {rest : List Char} (h : EndsNumber rest) : splitFraction rest = ([], rest) :=
  splitFraction_none fun r hr => (h '.' r hr).2.1 rfl

theorem EndsNumber.splitExponent? {rest : List Char} (h : EndsNumber rest) : splitExponent? rest = none := by
  unfold Json.splitExponent?
  split <;> first
    | rfl
    | exact absurd rfl (h _ _ rfl).2.2.1
    | exact absurd rfl (h _ _ rfl).2.2.2

theorem splitExponent?_e {ds rest : List Char} (hds : IsDigits ds) (hrest : EndsDigits rest) :
    splitExponent? ('e' :: (if negative then '-' else '+') :: (ds ++ rest)) =
      some (signed negative (digitsValue ds : ℤ), rest) := by
  cases negative <;> simp [splitExponent?, takeWhile_digits hds hrest, dropWhile_digits hds hrest, signed]

/-! ### Numbers without their sign -/

variable {whole places ds rest : List Char}

theorem readUnsigned?_append {s : List Char} (hwhole : IsDigits whole) (hne : whole ≠ []) (hs : EndsDigits s) :
    readUnsigned? negative (whole ++ s) = some (numberOf negative whole (splitFraction s).1 (splitFraction s).2) := by
  rw [readUnsigned?, takeWhile_digits hwhole hs, drop_left]
  simp [hne]

theorem readUnsigned?_int (hwhole : IsDigits whole) (hne : whole ≠ []) (hrest : EndsNumber rest) :
    readUnsigned? negative (whole ++ rest) = some (.int (signed negative (digitsValue whole)), rest) := by
  rw [readUnsigned?_append negative hwhole hne hrest.endsDigits, hrest.splitFraction]
  simp [numberOf, hrest.splitExponent?]

theorem readUnsigned?_point (hwhole : IsDigits whole) (hne : whole ≠ []) (hplaces : IsDigits places)
    (hne' : places ≠ []) (hrest : EndsNumber rest) : readUnsigned? negative (whole ++ '.' :: (places ++ rest)) =
      some (.float (signed negative (scientific (digitsValue (whole ++ places)) (-places.length))), rest) := by
  rw [readUnsigned?_append negative hwhole hne (endsDigits_cons (by decide) _),
    splitFraction_point hplaces hrest.endsDigits]
  simp [numberOf, hne', hrest.splitExponent?]

/-! ### The value of digits -/

theorem digitsValue_append (ds es : List Char) :
    digitsValue (ds ++ es) = 10 ^ es.length * digitsValue ds + digitsValue es := by
  change Nat.ofDigitChars 10 (ds ++ es) 0 = _
  rw [Nat.ofDigitChars_append, Nat.ofDigitChars_eq_ofDigitChars_zero]
  rfl

theorem digitsValue_zeros : digitsValue (List.replicate n '0') = 0 :=
  Nat.ofDigitChars_replicate_zero.trans (Nat.mul_zero _)

theorem digitsValue_cons_zero (ds : List Char) : digitsValue ('0' :: ds) = digitsValue ds := rfl

theorem digitsValue_toDigits : digitsValue (Nat.toDigits 10 n) = n := Nat.ofDigitChars_ten_toDigits

theorem isDigits_twoDigits : IsDigits (twoDigits n) := by
  rw [twoDigits]
  split
  · exact forall_mem_cons.mpr ⟨by decide, isDigits_toDigits n⟩
  · exact isDigits_toDigits n

theorem digitsValue_twoDigits : digitsValue (twoDigits n) = n := by
  rw [twoDigits]
  split
  · rw [digitsValue_cons_zero, digitsValue_toDigits]
  · exact digitsValue_toDigits n

/-! ### Digits as they are laid out -/

/-- A text that is read as a decimal with the given value. -/
def ReadsAs (t : List Char) (x : ℚ) : Prop :=
  ∃ (m : ℕ) (e : ℤ), (m * 10 ^ e : ℚ) = x ∧ ∀ negative rest, EndsNumber rest →
    readUnsigned? negative (t ++ rest) = some (.float (signed negative (scientific m e)), rest)

theorem readsAs_point (hwhole : IsDigits whole) (hne : whole ≠ []) (hplaces : IsDigits places) (hne' : places ≠ []) :
    ReadsAs (whole ++ '.' :: places) (digitsValue (whole ++ places) * 10 ^ (-places.length : ℤ)) := by
  refine ⟨_, _, rfl, fun negative rest hrest => ?_⟩
  rw [append_assoc, cons_append, readUnsigned?_point negative hwhole hne hplaces hne' hrest]

theorem readsAs_exponent (hwhole : IsDigits whole) (hne : whole ≠ []) (n : ℕ) :
    ReadsAs (whole ++ 'e' :: (if below then '-' else '+') :: twoDigits n)
      (digitsValue whole * 10 ^ signed below (n : ℤ)) := by
  refine ⟨_, _, rfl, fun negative rest hrest => ?_⟩
  rw [append_assoc, cons_append, readUnsigned?_append negative hwhole hne (endsDigits_cons (by decide) _),
    splitFraction_none (by simp)]
  simp [numberOf, splitExponent?_e below (isDigits_twoDigits n) hrest.endsDigits, digitsValue_twoDigits]

theorem readsAs_point_exponent (hwhole : IsDigits whole) (hne : whole ≠ []) (hplaces : IsDigits places)
    (n : ℕ) : ReadsAs (whole ++ '.' :: places ++ 'e' :: (if below then '-' else '+') :: twoDigits n)
      (digitsValue (whole ++ places) * 10 ^ (signed below (n : ℤ) - places.length)) := by
  refine ⟨_, _, rfl, fun negative rest hrest => ?_⟩
  rw [append_assoc, append_assoc, cons_append, cons_append,
    readUnsigned?_append negative hwhole hne (endsDigits_cons (by decide) _),
    splitFraction_point hplaces (endsDigits_cons (by decide) _)]
  simp [numberOf, splitExponent?_e below (isDigits_twoDigits n) hrest.endsDigits, digitsValue_twoDigits]

section layouts

variable (hds : IsDigits ds) (hne : ds ≠ []) {point : ℤ}
include hds hne

section
variable (hpositional : -4 < point ∧ point ≤ 16)
include hpositional

theorem readsAs_leadingZeros (hbelow : point ≤ 0) :
    ReadsAs (layOut ds point) (digitsValue ds * 10 ^ (point - ds.length)) := by
  have hlay : layOut ds point = ['0'] ++ '.' :: (List.replicate (-point).toNat '0' ++ ds) := by
    simp [layOut, hpositional, hbelow]
  have hvalue : digitsValue (['0'] ++ (List.replicate (-point).toNat '0' ++ ds)) = digitsValue ds := by
    rw [singleton_append, digitsValue_cons_zero, digitsValue_append, digitsValue_zeros, Nat.mul_zero, Nat.zero_add]
  have hexponent : point - ds.length = -((List.replicate (-point).toNat '0' ++ ds).length : ℤ) := by
    rw [length_append, length_replicate]
    omega
  rw [hlay, ← hvalue, hexponent]
  exact readsAs_point (isDigits_zeros 1) (by simp) (isDigits_append.mpr ⟨isDigits_zeros _, hds⟩) (by simp [hne])

theorem readsAs_trailingZeros (habove : 0 < point)
    (hlong : ds.length ≤ point.toNat) : ReadsAs (layOut ds point) (digitsValue ds * 10 ^ (point - ds.length)) := by
  have hlay : layOut ds point = (ds ++ List.replicate (point.toNat - ds.length) '0') ++ '.' :: ['0'] := by
    simp [layOut, hpositional, habove.not_ge, hlong]
  have hvalue : digitsValue (ds ++ List.replicate (point.toNat - ds.length) '0' ++ ['0']) =
      10 * (10 ^ (point.toNat - ds.length) * digitsValue ds) := by
    rw [digitsValue_append, digitsValue_append, digitsValue_zeros, length_replicate]
    rfl
  have hten : (10 : ℚ) ^ (point - ds.length) = 10 ^ (point.toNat - ds.length) := by
    rw [← zpow_natCast]
    congr 1
    omega
  have hscale : (digitsValue ds * 10 ^ (point - ds.length) : ℚ) =
      digitsValue (ds ++ List.replicate (point.toNat - ds.length) '0' ++ ['0']) * 10 ^ (-['0'].length : ℤ) := by
    rw [hvalue, hten]
    push_cast
    norm_num
    ring
  rw [hlay, hscale]
  exact readsAs_point (isDigits_append.mpr ⟨hds, isDigits_zeros _⟩) (by simp [hne]) (isDigits_zeros 1) (by simp)

omit hne in
theorem readsAs_inside (habove : 0 < point) (hshort : point.toNat < ds.length) :
    ReadsAs (layOut ds point) (digitsValue ds * 10 ^ (point - ds.length)) := by
  have hlay : layOut ds point = ds.take point.toNat ++ '.' :: ds.drop point.toNat := by
    simp [layOut, hpositional, habove.not_ge, hshort.not_ge]
  have hsplit := take_append_drop point.toNat ds
  have hparts : IsDigits (ds.take point.toNat) ∧ IsDigits (ds.drop point.toNat) :=
    isDigits_append.mp (hsplit.symm ▸ hds)
  have hexponent : point - ds.length = -((ds.drop point.toNat).length : ℤ) := by
    rw [length_drop]
    omega
  have hwhole : ds.take point.toNat ≠ [] := ne_nil_of_length_pos (by rw [length_take]; omega)
  have hplaces : ds.drop point.toNat ≠ [] := ne_nil_of_length_pos (by rw [length_drop]; omega)
  have hread := readsAs_point hparts.1 hwhole hparts.2 hplaces
  rwa [← hlay, hsplit, ← hexponent] at hread

end

theorem readsAs_scientific (hpositional : ¬(-4 < point ∧ point ≤ 16)) :
    ReadsAs (layOut ds point) (digitsValue ds * 10 ^ (point - ds.length)) := by
  have hsigned : signed (decide (point - 1 < 0)) ((point - 1).natAbs : ℤ) = point - 1 := by
    simp only [signed, decide_eq_true_eq]
    split <;> omega
  obtain ⟨d, r, rfl⟩ := exists_cons_of_ne_nil hne
  obtain ⟨hd, hr⟩ := forall_mem_cons.mp hds
  have hlead : IsDigits [d] := by simpa [IsDigits] using hd
  cases r with
  | nil =>
    have hlay : layOut [d] point =
        [d] ++ 'e' :: (if decide (point - 1 < 0) then '-' else '+') :: twoDigits (point - 1).natAbs := by
      simp [layOut, hpositional]
    have hread := readsAs_exponent (decide (point - 1 < 0)) hlead (by simp) (point - 1).natAbs
    rwa [← hlay, hsigned] at hread
  | cons d' r =>
    have hlay : layOut (d :: d' :: r) point = [d] ++ '.' :: (d' :: r) ++
        'e' :: (if decide (point - 1 < 0) then '-' else '+') :: twoDigits (point - 1).natAbs := by
      simp [layOut, hpositional]
    have hread := readsAs_point_exponent (decide (point - 1 < 0)) hlead (by simp) hr (point - 1).natAbs
    have hexponent : point - (d :: d' :: r).length = point - 1 - (d' :: r).length := by
      simp only [length_cons]
      omega
    rwa [← hlay, hsigned, ← hexponent] at hread

/-- However digits are laid out, they are read with the value that they have at the point. -/
theorem readsAs_layOut (point : ℤ) : ReadsAs (layOut ds point) (digitsValue ds * 10 ^ (point - ds.length)) := by
  by_cases hpositional : -4 < point ∧ point ≤ 16
  · rcases le_or_gt point 0 with hbelow | habove
    · exact readsAs_leadingZeros hds hne hpositional hbelow
    · rcases le_or_gt ds.length point.toNat with hlong | hshort
      · exact readsAs_trailingZeros hds hne hpositional habove hlong
      · exact readsAs_inside hds hpositional habove hshort
  · exact readsAs_scientific hds hne hpositional

end layouts

/-! ### Integers and doubles -/

theorem readNumber?_signed {t : List Char} {value : Bool → Scalar}
    (h : ∀ negative, readUnsigned? negative (t ++ rest) = some (value negative, rest)) :
    readNumber? ((if negative then ['-'] else []) ++ t ++ rest) = some (value negative, rest) := by
  rw [readNumber?]
  cases negative with
  | true => exact h true
  | false =>
    have hsplit : splitSign (t ++ rest) = (false, t ++ rest) := by
      unfold splitSign
      split
      next r hr =>
        have hnone : readUnsigned? true ('-' :: r) = none := by simp [readUnsigned?]
        rw [← hr, h] at hnone
        cases hnone
      next => rfl
    simp only [Bool.false_eq_true, if_false, nil_append]
    rw [hsplit]
    exact h false

theorem readNumber?_int (n : ℤ) (hrest : EndsNumber rest) :
    readNumber? ((toString n).toList ++ rest) = some (.int n, rest) := by
  have hread (negative : Bool) := readUnsigned?_int negative (isDigits_toDigits n.natAbs) Nat.toDigits_ne_nil hrest
  have hsigned := readNumber?_signed (decide (n < 0)) hread
  have htext : (toString n).toList = (if decide (n < 0) then ['-'] else []) ++ Nat.toDigits 10 n.natAbs := by
    rw [Int.toString_eq_repr, Int.repr_eq_if]
    rcases lt_or_ge n 0 with h | h
    · rw [if_neg (not_le.mpr h), String.toList_append, Nat.toList_repr, decide_eq_true h, if_pos rfl,
        show (-n).toNat = n.natAbs by omega]
      rfl
    · rw [if_pos h, Nat.toList_repr, decide_eq_false (not_lt.mpr h), if_neg (by decide), nil_append,
        show n.toNat = n.natAbs by omega]
  have hvalue : signed (decide (n < 0)) (n.natAbs : ℤ) = n := by
    simp only [signed, decide_eq_true_eq]
    split <;> omega
  rw [htext, hsigned, digitsValue_toDigits, hvalue]

theorem exists_significant : ∃ z, Nat.toDigits 10 n = significant n ++ List.replicate z '0' := by
  refine ⟨((Nat.toDigits 10 n).reverse.takeWhile (· == '0')).length, ?_⟩
  have hzeros : (Nat.toDigits 10 n).reverse.takeWhile (· == '0') =
      List.replicate ((Nat.toDigits 10 n).reverse.takeWhile (· == '0')).length '0' := by
    refine eq_replicate_of_mem fun c hc => ?_
    exact beq_iff_eq.mp (all_eq_true.mp all_takeWhile c hc)
  rw [← reverse_inj, significant, reverse_append, reverse_reverse, reverse_replicate, ← hzeros,
    takeWhile_append_dropWhile]

theorem isDigits_significant : IsDigits (significant n) := by
  obtain ⟨z, hz⟩ := exists_significant n
  exact (isDigits_append.mp (hz ▸ isDigits_toDigits n)).1

theorem significant_ne_nil {n : ℕ} (hn : 0 < n) : significant n ≠ [] := by
  intro h
  obtain ⟨z, hz⟩ := exists_significant n
  have hvalue := digitsValue_toDigits n
  rw [hz, h, nil_append, digitsValue_zeros] at hvalue
  omega

theorem readsAs_digits {n : ℕ} (hn : 0 < n) (e : ℤ) :
    ReadsAs (layOut (significant n) (e + (Nat.toDigits 10 n).length)) (n * 10 ^ e) := by
  obtain ⟨z, hz⟩ := exists_significant n
  have hvalue : n = 10 ^ z * digitsValue (significant n) := by
    have := digitsValue_toDigits n
    rw [hz, digitsValue_append, digitsValue_zeros, length_replicate] at this
    exact this.symm
  have hread := readsAs_layOut (isDigits_significant n) (significant_ne_nil hn) (e + (Nat.toDigits 10 n).length)
  have hexponent : e + (Nat.toDigits 10 n).length - (significant n).length = e + z := by
    rw [hz, length_append, length_replicate]
    push_cast
    ring
  rw [hexponent, zpow_add₀ (by norm_num), zpow_natCast] at hread
  have hscale : (n * 10 ^ e : ℚ) = digitsValue (significant n) * (10 ^ e * 10 ^ z) := by
    conv_lhs => rw [hvalue]
    push_cast
    ring
  rwa [hscale]

theorem eq_signed_zero {x : Float} (h : absoluteBits x = 0) : x = signed (isNegative x) 0 := by
  have hlt : x.toBits.toNat < 2 ^ 64 := x.toBits.toNat_lt
  rw [absoluteBits] at h
  refine Float.toBits_inj.mp (UInt64.toNat_inj.mp ?_)
  by_cases hn : isNegative x = true
  · have hbits : (-(0 : Float)).toBits = 0x8000000000000000 := by decide +kernel
    rw [hn, signed, if_pos rfl, hbits]
    simp only [isNegative, decide_eq_true_eq] at hn
    change _ = 0x8000000000000000
    omega
  · have hbits : (0 : Float).toBits = 0 := by decide +kernel
    rw [signed, if_neg hn, hbits]
    simp only [isNegative, decide_eq_true_eq] at hn
    change _ = 0
    omega

theorem readNumber?_zero {x : Float} (h : absoluteBits x = 0) (hrest : EndsNumber rest) :
    readNumber? ((text x).toList ++ rest) = some (.float x, rest) := by
  have hread (negative : Bool) : readUnsigned? negative (['0', '.', '0'] ++ rest) =
      some (.float (signed negative 0), rest) :=
    readUnsigned?_point negative (isDigits_zeros 1) (by simp) (isDigits_zeros 1) (by simp) hrest
  have htext : (text x).toList = (if isNegative x then ['-'] else []) ++ ['0', '.', '0'] := by
    rw [text, h]
    cases isNegative x <;> rfl
  have hx := eq_signed_zero h
  rw [htext, readNumber?_signed (isNegative x) hread, ← hx]

theorem readNumber?_text {x : Float} (hx : absoluteBits x < 0x7ff0000000000000) (hrest : EndsNumber rest) :
    readNumber? ((text x).toList ++ rest) = some (.float x, rest) := by
  by_cases hzero : absoluteBits x = 0
  · exact readNumber?_zero hzero hrest
  · obtain ⟨hc, hE, hparts⟩ := exists_eq_double hx hzero
    have hshortest := roundsTo_shortest (sound_ofBits hc)
    obtain ⟨d, hd⟩ : ∃ d, d = shortest (Binary.ofBits (absoluteBits x)) := ⟨_, rfl⟩
    rw [← hd] at hshortest
    obtain ⟨m, e, hvalue, hread⟩ := readsAs_digits (hshortest.digits_pos hc) d.exponent
    rw [← hvalue] at hshortest
    have htext : (text x).toList = (if isNegative x then ['-'] else []) ++
        layOut (significant d.digits) (d.exponent + (Nat.toDigits 10 d.digits).length) := by
      rw [text, hd]
      simp only [if_neg hx.not_gt, if_neg hx.ne, if_neg hzero, String.toList_append, String.toList_ofList]
      cases isNegative x <;> rfl
    have hdouble : signed (isNegative x) (double .positive hc) = x := by
      conv_rhs => rw [hparts]
      cases isNegative x with
      | true => exact neg_double hc hE
      | false => rfl
    rw [htext, readNumber?_signed (isNegative x) fun negative => hread negative rest hrest,
      scientific_eq (hshortest.digits_pos hc) hc hE hshortest, hdouble]

/-! ### The end of a line -/

theorem newline_mem_dropWhile {s : List Char} (h : '\n' ∈ s) : '\n' ∈ s.dropWhile Char.isDigit := by
  rw [← takeWhile_append_dropWhile (p := Char.isDigit) (l := s), mem_append] at h
  rcases h with h | h
  · exact absurd (mem_takeWhile_imp h) (by decide)
  · exact h

theorem newline_mem_splitExponent? {s : List Char} {e : ℤ} (h : splitExponent? s = some (e, rest)) (hs : '\n' ∈ s) :
    '\n' ∈ rest := by
  unfold splitExponent? at h
  split at h
  all_goals first
    | cases h
      simp only [mem_cons, Char.reduceEq, false_or] at hs
      exact newline_mem_dropWhile hs
    | cases h

theorem newline_mem_numberOf {s : List Char} (hs : '\n' ∈ s) :
    '\n' ∈ (numberOf negative whole places s).2 := by
  unfold numberOf
  split
  · exact hs
  · cases h : splitExponent? s with
    | none => exact hs
    | some e => exact newline_mem_splitExponent? h hs

/-- No number goes on behind the end of a line. -/
theorem newline_mem_of_readNumber? {s : List Char} {x : Scalar} (h : readNumber? s = some (x, rest))
    (hs : '\n' ∈ s) : '\n' ∈ rest := by
  have hsign : '\n' ∈ (splitSign s).2 := by
    unfold splitSign
    split
    · simpa using hs
    · exact hs
  have hplaces {u : List Char} (hu : '\n' ∈ u) : '\n' ∈ (splitFraction u).2 := by
    unfold splitFraction
    split
    · exact newline_mem_dropWhile (by simpa using hu)
    · exact hu
  obtain ⟨-, h⟩ := Option.ite_none_left_eq_some.mp h
  have hrest : _ = rest := congrArg Prod.snd (Option.some.inj h)
  rw [← hrest]
  refine newline_mem_numberOf _ (hplaces ?_)
  have hdrop := newline_mem_dropWhile hsign
  have hsplit := @drop_left _ ((splitSign s).2.takeWhile Char.isDigit) ((splitSign s).2.dropWhile Char.isDigit)
  rwa [← hsplit, takeWhile_append_dropWhile] at hdrop

end ContractAudit.Json
