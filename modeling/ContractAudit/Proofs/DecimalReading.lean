import ContractAudit.Decimal.Reading
import ContractAudit.Proofs.DoubleParts

/-! # Reading decimals

A decimal `m * 10 ^ e` in the interval of a double is read as that double: products and quotients have
digits enough to be rounded as the exact number. -/

namespace ContractAudit.Rounding
open Float.Model Float.Model.UnpackedFloat Format
variable {m m₁ m₂ M : ℕ} {e E : ℤ}

/-! ### Products and quotients -/

/-- A number with 53 binary digits is only ever shortened by rounding. -/
theorem le_target (h : e ≤ -1074 ∨ 2 ^ 52 ≤ m) : e ≤ target m e := by
  rw [target_eq]
  rcases h with h | h
  · exact h.trans (le_max_right _ _)
  · have hlog : 52 ≤ m.log2 := (Nat.le_log2 (by omega)).mpr h
    exact le_trans (by omega) (le_max_left _ _)

/-- A product with digits enough is rounded as the exact product. -/
theorem mul_eq {e₁ e₂ : ℤ} (h₁ : 0 < m₁) (h₂ : 0 < m₂) (hdigits : 2 ^ 52 ≤ m₁ * m₂)
    (hc : Canonical M E) (hx : RoundsTo (m₁ * 2 ^ e₁ * (m₂ * 2 ^ e₂)) M E) :
    UnpackedFloat.mul .binary64 (.finite .positive m₁ e₁ h₁) (.finite .positive m₂ e₂ h₂) =
      .finite .positive M E hc.pos := by
  refine roundWithAccuracy_eq ?_ (le_target (.inr hdigits)) hc hx _
  change (m₁ * 2 ^ e₁ * (m₂ * 2 ^ e₂) / 2 ^ (e₁ + e₂) : ℚ) = (m₁ * m₂ : ℕ)
  have := two_zpow_pos e₁
  have := two_zpow_pos e₂
  rw [two_zpow_add, Nat.cast_mul]
  field_simp

/-- The quotient and its remainder tell on which side of the middle the exact quotient is. -/
theorem approximates_div (n : ℕ) {d : ℕ} (hd : 0 < d) :
    Approximates (n / d : ℚ) (n / d) (accuracyOfFraction (n % d) d) := by
  have hd' : (0 : ℚ) < d := by exact_mod_cast hd
  have hlt : ((n % d : ℕ) : ℚ) < d := by exact_mod_cast Nat.mod_lt n hd
  have hn : (n / d : ℚ) = (n / d : ℕ) + (n % d : ℕ) / d := by
    have hdiv : (n : ℚ) = d * (n / d : ℕ) + (n % d : ℕ) := by exact_mod_cast (Nat.div_add_mod n d).symm
    field_simp
    linarith
  rw [hn, accuracyOfFraction]
  have hfraction : ((n % d : ℕ) / d : ℚ) < 1 := by rwa [div_lt_one hd']
  split
  next hr => simp [hr, Approximates]
  next hr =>
    have hpos : (0 : ℚ) < (n % d : ℕ) / d := div_pos (by exact_mod_cast Nat.pos_of_ne_zero hr) hd'
    rcases lt_trichotomy (2 * (n % d)) d with h | h | h
    · have hhalf : ((n % d : ℕ) / d : ℚ) < 1 / 2 := by
        rw [div_lt_div_iff₀ hd' (by norm_num)]
        have : (2 * (n % d : ℕ) : ℚ) < d := by exact_mod_cast h
        linarith
      rw [Nat.compare_eq_lt.mpr h]
      exact ⟨by linarith, by linarith⟩
    · have hhalf : ((n % d : ℕ) / d : ℚ) = 1 / 2 := by
        rw [div_eq_div_iff hd'.ne' (by norm_num)]
        have : (2 * (n % d : ℕ) : ℚ) = d := by exact_mod_cast h
        linarith
      rw [Nat.compare_eq_eq.mpr h, hhalf]
      rfl
    · have hhalf : (1 / 2 : ℚ) < (n % d : ℕ) / d := by
        rw [div_lt_div_iff₀ (by norm_num) hd']
        have : (d : ℚ) < 2 * (n % d : ℕ) := by exact_mod_cast h
        linarith
      rw [Nat.compare_eq_gt.mpr h]
      exact ⟨by linarith, by linarith⟩

def quotientExponent (m₁ : ℕ) (e₁ : ℤ) (m₂ : ℕ) (e₂ : ℤ) : ℤ :=
  min (e₁ - e₂) (max (m₁.log2 - m₂.log2 + (e₁ - e₂) - 53) (-1074))

/-- The quotient of the mantissas, shifted to the exponent of the result. -/
theorem divCore_eq (m₁ : ℕ) (e₁ : ℤ) (m₂ : ℕ) (e₂ : ℤ) : divCore .binary64 m₁ e₁ m₂ e₂ =
      (m₁ * 2 ^ (e₁ - e₂ - quotientExponent m₁ e₁ m₂ e₂).toNat / m₂, quotientExponent m₁ e₁ m₂ e₂,
        accuracyOfFraction (m₁ * 2 ^ (e₁ - e₂ - quotientExponent m₁ e₁ m₂ e₂).toNat % m₂) m₂) := by
  have hmin : binary64.minExponent = -1074 := by decide
  have hbits : binary64.mantissaBits = 53 := by decide
  have htarget : min (e₁ - e₂) (binary64.targetExponent (totalExponent m₁ e₁ - totalExponent m₂ e₂)) =
      quotientExponent m₁ e₁ m₂ e₂ := by
    rw [quotientExponent, targetExponent, totalExponent, totalExponent, hmin, hbits]
    omega
  rw [divCore, htarget]
  simp only [Nat.shiftLeft_eq]

theorem le_target_quotient (h₁ : 0 < m₁) (h₂ : 0 < m₂) (e₁ e₂ : ℤ) : quotientExponent m₁ e₁ m₂ e₂ ≤
      target (m₁ * 2 ^ (e₁ - e₂ - quotientExponent m₁ e₁ m₂ e₂).toNat / m₂) (quotientExponent m₁ e₁ m₂ e₂) := by
  obtain ⟨t, ht⟩ : ∃ t, t = quotientExponent m₁ e₁ m₂ e₂ := ⟨_, rfl⟩
  rw [← ht]
  rw [quotientExponent] at ht
  refine le_target ?_
  by_cases hleast : t ≤ -1074
  · exact .inl hleast
  · right
    obtain ⟨k, hk⟩ : ∃ k, k = (e₁ - e₂ - t).toNat := ⟨_, rfl⟩
    rw [← hk, Nat.le_div_iff_mul_le h₂]
    have hshift : m₂.log2 + 53 ≤ m₁.log2 + k := by omega
    calc 2 ^ 52 * m₂ ≤ 2 ^ 52 * 2 ^ (m₂.log2 + 1) := Nat.mul_le_mul_left _ Nat.lt_log2_self.le
      _ = 2 ^ (m₂.log2 + 53) := by rw [← Nat.pow_add]; congr 1; omega
      _ ≤ 2 ^ (m₁.log2 + k) := Nat.pow_le_pow_right (by decide) hshift
      _ = 2 ^ m₁.log2 * 2 ^ k := Nat.pow_add ..
      _ ≤ m₁ * 2 ^ k := Nat.mul_le_mul_right _ (Nat.log2_self_le h₁.ne')

/-- A quotient is rounded as the exact quotient. -/
theorem div_eq {e₁ e₂ : ℤ} (h₁ : 0 < m₁) (h₂ : 0 < m₂) (hc : Canonical M E)
    (hx : RoundsTo (m₁ * 2 ^ e₁ / (m₂ * 2 ^ e₂)) M E) :
    UnpackedFloat.div .binary64 (.finite .positive m₁ e₁ h₁) (.finite .positive m₂ e₂ h₂) =
      .finite .positive M E hc.pos := by
  have hdigits := le_target_quotient h₁ h₂ e₁ e₂
  have hcore := divCore_eq m₁ e₁ m₂ e₂
  have hle : quotientExponent m₁ e₁ m₂ e₂ ≤ e₁ - e₂ := min_le_left _ _
  generalize quotientExponent m₁ e₁ m₂ e₂ = t at hdigits hcore hle
  rw [UnpackedFloat.div, hcore]
  refine roundWithAccuracy_eq ?_ hdigits hc hx _
  have hquotient : (m₁ * 2 ^ e₁ / (m₂ * 2 ^ e₂) / 2 ^ t : ℚ) = (m₁ * 2 ^ (e₁ - e₂ - t).toNat : ℕ) / m₂ := by
    have hpow : (2 : ℚ) ^ e₁ = 2 ^ (e₁ - e₂ - t).toNat * 2 ^ e₂ * 2 ^ t := by
      rw [← zpow_natCast, ← two_zpow_add, ← two_zpow_add]
      congr 1
      omega
    have := two_zpow_pos e₂
    have := two_zpow_pos t
    rw [hpow, Nat.cast_mul, Nat.cast_pow]
    field_simp
    norm_num
  rw [hquotient]
  exact approximates_div _ h₂

/-! ### Powers of ten -/

theorem RoundsTo.lower {x : ℚ} (hx : RoundsTo x M E) (hc : Canonical M E) : 2 ^ (-1075 : ℤ) ≤ x := by
  have hM : (1 : ℚ) ≤ M := by exact_mod_cast hc.pos
  have hhalf : (1 / 2 : ℚ) ≤ x / 2 ^ E := by linarith [hx.nearest.above]
  rw [le_div_iff₀ (two_zpow_pos E)] at hhalf
  calc (2 : ℚ) ^ (-1075 : ℤ) ≤ 2 ^ (-1 + E) := two_zpow_le (by have := hc.least; omega)
    _ = 1 / 2 * 2 ^ E := by rw [two_zpow_add]; norm_num
    _ ≤ x := hhalf

theorem RoundsTo.upper {x : ℚ} (hx : RoundsTo x M E) (hc : Canonical M E) (hE : E ≤ 971) :
    x < 2 ^ (1024 : ℤ) := (hx.below hc).trans_le (two_zpow_le (by omega))

theorem RoundsTo.digits_pos {n : ℕ} (hx : RoundsTo (n * 10 ^ e) M E) (hc : Canonical M E) : 0 < n := by
  rcases Nat.eq_zero_or_pos n with rfl | h
  · have hlow := hx.lower hc
    rw [Nat.cast_zero, zero_mul] at hlow
    exact absurd hlow (two_zpow_pos _).not_ge
  · exact h

theorem ten_zpow_of_nonneg (he : 0 ≤ e) : (10 : ℚ) ^ e = (10 ^ e.toNat : ℕ) := by
  obtain ⟨n, rfl⟩ := Int.eq_ofNat_of_zero_le he
  rw [zpow_natCast, Int.toNat_natCast]
  norm_num

theorem ten_zpow_of_neg (he : e < 0) : (10 : ℚ) ^ e = 1 / (10 ^ (-e).toNat : ℕ) := by
  obtain ⟨n, rfl⟩ : ∃ n : ℕ, e = -n := ⟨(-e).toNat, by omega⟩
  rw [zpow_neg]
  norm_num

/-- The powers that are not computed are far outside of the range of doubles. -/
theorem RoundsTo.exponent (hm : 0 < m) (hx : RoundsTo (m * 10 ^ e) M E)
    (hc : Canonical M E) (hE : E ≤ 971) : e ≤ 2048 ∧ -(2048 + (m.log2 : ℤ)) ≤ e := by
  have hlow := hx.lower hc
  have hhigh := hx.upper hc hE
  constructor
  · by_contra h
    have hpow : (2 : ℚ) ^ (1024 : ℤ) ≤ 10 ^ e :=
      calc (2 : ℚ) ^ (1024 : ℤ) ≤ 10 ^ (1024 : ℤ) := zpow_le_zpow_left₀ (by norm_num) (by norm_num) (by norm_num)
        _ ≤ 10 ^ e := zpow_le_zpow_right₀ (by norm_num) (by omega)
    have hm' : (1 : ℚ) ≤ m := by exact_mod_cast hm
    have : (10 : ℚ) ^ e ≤ m * 10 ^ e := le_mul_of_one_le_left (by positivity) hm'
    linarith
  · by_contra h
    have hpow : (10 : ℚ) ^ e ≤ 2 ^ e := by
      obtain ⟨n, rfl⟩ : ∃ n : ℕ, e = -n := ⟨(-e).toNat, by omega⟩
      rw [zpow_neg, zpow_neg, zpow_natCast, zpow_natCast]
      exact inv_anti₀ (by positivity) (pow_le_pow_left₀ (by norm_num) (by norm_num) n)
    have hm' : (m : ℚ) ≤ 2 ^ ((m.log2 : ℤ) + 1) := by exact_mod_cast Nat.lt_log2_self.le
    have : (m * 10 ^ e : ℚ) ≤ 2 ^ ((m.log2 : ℤ) + 1 + e) := by
      rw [two_zpow_add _ e]
      exact mul_le_mul hm' hpow (by positivity) (by positivity)
    have := two_zpow_lt_iff.mp (show (2 : ℚ) ^ (-1076 : ℤ) < 2 ^ ((m.log2 : ℤ) + 1 + e) from
      (two_zpow_lt_iff.mpr (by norm_num)).trans_le (hlow.trans this))
    omega

/-- A decimal in the interval of a double is rounded to that double. -/
theorem ofScientific_eq (hm : 0 < m) (hc : Canonical M E) (hE : E ≤ 971)
    (hx : RoundsTo (m * 10 ^ e) M E) : UnpackedFloat.ofScientific .binary64 m e = .finite .positive M E hc.pos := by
  obtain ⟨hhigh, hlow⟩ := hx.exponent hm hc hE
  have hhuge : ¬e > 2 ^ binary64.exponentBits := by
    change ¬e > 2048
    omega
  have htiny : ¬e < -((2 ^ binary64.exponentBits : ℤ) + m.log2) := by
    change ¬e < -(2048 + (m.log2 : ℤ))
    omega
  rw [UnpackedFloat.ofScientific, dif_neg hm.ne', if_neg hhuge, if_neg htiny]
  split
  next he =>
    rw [ten_zpow_of_nonneg he] at hx
    refine mul_eq _ _ ?_ hc ?_
    · rw [Nat.shiftLeft_eq]
      calc 2 ^ 52 ≤ 2 ^ binary64.mantissaBits := by decide
        _ ≤ m * 2 ^ binary64.mantissaBits := Nat.le_mul_of_pos_left _ hm
        _ ≤ m * 2 ^ binary64.mantissaBits * 10 ^ e.toNat := Nat.le_mul_of_pos_right _ (by positivity)
    · rw [Nat.shiftLeft_eq, zpow_neg, zpow_natCast, zpow_zero, mul_one, Nat.cast_mul, Nat.cast_pow, Nat.cast_ofNat,
        mul_inv_cancel_right₀ (by positivity)]
      exact hx
  next he =>
    rw [ten_zpow_of_neg (by omega), mul_one_div] at hx
    refine div_eq _ _ hc ?_
    rwa [zpow_zero, mul_one, mul_one]

/-! ### Numbers that are doubles themselves -/

theorem roundsTo_self : RoundsTo (M * 2 ^ E) M E := by
  have hself : (M * 2 ^ E / 2 ^ E : ℚ) = M := mul_div_cancel_right₀ _ (two_zpow_pos E).ne'
  constructor
  · rw [hself]
    exact ⟨by linarith, by linarith, fun h => by rcases h with h | h <;> linarith⟩
  · intro hM _
    rw [hself, hM]
    norm_num

/-- A number below `2 ^ 53` is a double itself. -/
theorem exists_ofNat {n : ℕ} (hpos : 0 < n) (hn : n < 2 ^ 53) : ∃ (M : ℕ) (E : ℤ) (hc : Canonical M E),
    E ≤ 971 ∧ 2 ^ 52 ≤ M ∧ (M * 2 ^ E : ℚ) = n ∧ UnpackedFloat.ofNat .binary64 n = .finite .positive M E hc.pos := by
  have hlog : n.log2 < 53 := (Nat.log2_lt hpos.ne').mpr hn
  have hlow : 2 ^ 52 ≤ n * 2 ^ (52 - n.log2) :=
    calc 2 ^ 52 = 2 ^ n.log2 * 2 ^ (52 - n.log2) := by rw [← Nat.pow_add]; congr 1; omega
      _ ≤ n * 2 ^ (52 - n.log2) := Nat.mul_le_mul_right _ (Nat.log2_self_le hpos.ne')
  have hhigh : n * 2 ^ (52 - n.log2) < 2 ^ 53 :=
    calc n * 2 ^ (52 - n.log2) < 2 ^ (n.log2 + 1) * 2 ^ (52 - n.log2) :=
          Nat.mul_lt_mul_of_pos_right Nat.lt_log2_self (by positivity)
      _ = 2 ^ 53 := by rw [← Nat.pow_add]; congr 1; omega
  have hc : Canonical (n * 2 ^ (52 - n.log2)) (n.log2 - 52) := ⟨by positivity, hhigh, by omega, .inl hlow⟩
  have hvalue : ((n * 2 ^ (52 - n.log2) : ℕ) * 2 ^ ((n.log2 : ℤ) - 52) : ℚ) = n := by
    rw [Nat.cast_mul, Nat.cast_pow, Nat.cast_ofNat, mul_assoc, ← zpow_natCast, ← two_zpow_add]
    have : ((52 - n.log2 : ℕ) : ℤ) + (n.log2 - 52) = 0 := by omega
    rw [this, zpow_zero, mul_one]
  refine ⟨_, _, hc, by omega, hlow, hvalue, ?_⟩
  have hcompare : compare (n : ℤ) 0 = .gt := by
    rw [compare_gt_iff_gt]
    exact_mod_cast hpos
  have htarget : binary64.targetExponent (totalExponent n 0) = (n.log2 : ℤ) - 52 := by
    have := target_eq n 0
    rw [target] at this
    omega
  have hamount : (0 - ((n.log2 : ℤ) - 52)).toNat = 52 - n.log2 := by omega
  have hexponent : (0 : ℤ) - (52 - n.log2 : ℕ) = n.log2 - 52 := by omega
  rw [UnpackedFloat.ofNat, UnpackedFloat.ofInt, UnpackedFloat.normalize, hcompare]
  simp only [Int.toNat_natCast]
  rw [UnpackedFloat.round, htarget, decreaseExponent, hamount, hexponent, Nat.shiftLeft_eq]
  refine roundWithAccuracy_eq ?_ (le_target (.inr hlow)) hc (hvalue ▸ roundsTo_self) _
  change (n / 2 ^ ((n.log2 : ℤ) - 52) : ℚ) = _
  rw [div_eq_iff (two_zpow_pos _).ne', hvalue]

open Decimal

def isPowerOfTen (x : Float) (e : ℕ) : Bool :=
  let b := Binary.ofBits (absoluteBits x)
  decide (absoluteBits x < 0x7ff0000000000000) && !isNegative x && decide (2 ^ 52 ≤ b.mantissa) &&
    b.mantissa * 2 ^ b.exponent.toNat == 10 ^ e * 2 ^ (-b.exponent).toNat

/-- The table of powers of ten holds the exact powers. -/
theorem all_isPowerOfTen :
    (Float.exactlyRepresentablePowersOfTen.toList.zipIdx.all fun p => isPowerOfTen p.1 p.2) = true := by
  decide +kernel

theorem exists_powerOfTen {e : ℕ} (he : e < Float.exactlyRepresentablePowersOfTen.size) :
    ∃ (M : ℕ) (E : ℤ) (hc : Canonical M E), E ≤ 971 ∧ 2 ^ 52 ≤ M ∧ (M * 2 ^ E : ℚ) = 10 ^ e ∧
      Float.exactlyRepresentablePowersOfTen[e] = double .positive hc := by
  have hmem : (Float.exactlyRepresentablePowersOfTen[e], e) ∈ Float.exactlyRepresentablePowersOfTen.toList.zipIdx := by
    rw [List.mem_zipIdx_iff_getElem?]
    simp [he]
  have hpower := List.all_eq_true.mp all_isPowerOfTen _ hmem
  generalize Float.exactlyRepresentablePowersOfTen[e] = x at hpower
  simp only [isPowerOfTen, Bool.and_eq_true, decide_eq_true_eq, Bool.not_eq_true', beq_iff_eq] at hpower
  obtain ⟨⟨⟨hfinite, hsign⟩, hdigits⟩, hvalue⟩ := hpower
  have hne : absoluteBits x ≠ 0 := by
    intro h
    rw [h] at hdigits
    exact absurd hdigits (by decide)
  obtain ⟨hc, hE, hx⟩ := exists_eq_double hfinite hne
  rw [if_neg (by rw [hsign]; decide)] at hx
  refine ⟨_, _, hc, hE, hdigits, ?_, hx⟩
  generalize (Binary.ofBits (absoluteBits x)).exponent = E at hvalue
  have hpow : (2 : ℚ) ^ E = 2 ^ E.toNat / 2 ^ (-E).toNat := by
    have hsub : E = (E.toNat : ℤ) - (-E).toNat := by omega
    conv_lhs => rw [hsub, zpow_sub₀ (by norm_num), zpow_natCast, zpow_natCast]
  rw [hpow, mul_div_assoc', div_eq_iff (by positivity)]
  exact_mod_cast hvalue

section doubles

variable {M₁ M₂ : ℕ} {E₁ E₂ : ℤ} (h₁ : Canonical M₁ E₁) (h₂ : Canonical M₂ E₂)
variable (hE₁ : E₁ ≤ 971) (hE₂ : E₂ ≤ 971)
include hE₁ hE₂

theorem double_div_double (hc : Canonical M E) (hx : RoundsTo (M₁ * 2 ^ E₁ / (M₂ * 2 ^ E₂)) M E) :
    double .positive h₁ / double .positive h₂ = double .positive hc := by
  change Float.ofModel (.pack (UnpackedFloat.div .binary64 (double .positive h₁).toModel.unpack
    (double .positive h₂).toModel.unpack)) = _
  rw [unpack_double h₁ hE₁, unpack_double h₂ hE₂, div_eq h₁.pos h₂.pos hc hx, double]

theorem double_mul_double (hdigits : 2 ^ 52 ≤ M₁) (hc : Canonical M E)
    (hx : RoundsTo (M₁ * 2 ^ E₁ * (M₂ * 2 ^ E₂)) M E) :
    double .positive h₁ * double .positive h₂ = double .positive hc := by
  change Float.ofModel (.pack (UnpackedFloat.mul .binary64 (double .positive h₁).toModel.unpack
    (double .positive h₂).toModel.unpack)) = _
  rw [unpack_double h₁ hE₁, unpack_double h₂ hE₂,
    mul_eq h₁.pos h₂.pos (hdigits.trans (Nat.le_mul_of_pos_right _ h₂.pos)) hc hx, double]

end doubles

theorem toFloat_eq (hm : m < 2 ^ 53) (hc : Canonical M E)
    (h : UnpackedFloat.ofNat .binary64 m = .finite .positive M E hc.pos) :
    m.toUInt64.toFloat = double .positive hc := by
  have hnat : m.toUInt64.toNat = m := UInt64.toNat_ofNat_of_lt' (hm.trans (by decide))
  change Float.ofModel (.pack (UnpackedFloat.ofNat .binary64 m.toUInt64.toNat)) = _
  rw [hnat, h, double]

/-- Whichever way is taken, the number `m * 10 ^ e` is read as the double in whose interval it is. -/
theorem floatOfScientific_eq (hm : 0 < m) (hc : Canonical M E) (hE : E ≤ 971)
    (hx : RoundsTo (m * 10 ^ e) M E) : Float.ofScientific m (e < 0) e.natAbs = double .positive hc := by
  rw [Float.ofScientific]
  split
  next hsmall =>
    obtain ⟨hm53, he⟩ := hsmall
    obtain ⟨M₁, E₁, hc₁, hE₁, hdigits, hvalue₁, hofNat⟩ := exists_ofNat hm hm53
    have hsize : e.natAbs < Float.exactlyRepresentablePowersOfTen.size := Nat.lt_succ_of_le he
    obtain ⟨M₂, E₂, hc₂, hE₂, -, hvalue₂, hpower⟩ := exists_powerOfTen hsize
    rw [toFloat_eq hm53 hc₁ hofNat, hpower]
    by_cases hneg : e < 0
    · have hten : (10 : ℚ) ^ e = 1 / 10 ^ e.natAbs := by
        rw [ten_zpow_of_neg hneg, Nat.cast_pow, Nat.cast_ofNat]
        congr 2
        omega
      rw [hten, mul_one_div] at hx
      simp only [hneg, decide_true, if_true]
      exact double_div_double hc₁ hc₂ hE₁ hE₂ hc (by rwa [hvalue₁, hvalue₂])
    · have hten : (10 : ℚ) ^ e = 10 ^ e.natAbs := by
        rw [ten_zpow_of_nonneg (by omega), Nat.cast_pow, Nat.cast_ofNat]
        congr 1
        omega
      rw [hten] at hx
      simp only [hneg, decide_false, Bool.false_eq_true, if_false]
      exact double_mul_double hc₁ hc₂ hE₁ hE₂ hdigits hc (by rwa [hvalue₁, hvalue₂])
  next =>
    have hexponent : (if decide (e < 0) = true then Int.negOfNat e.natAbs else Int.ofNat e.natAbs) = e := by
      simp only [decide_eq_true_eq, Int.negOfNat_eq, Int.ofNat_eq_natCast]
      split <;> omega
    rw [hexponent]
    change Float.ofModel (.pack (UnpackedFloat.ofScientific .binary64 m e)) = _
    rw [ofScientific_eq hm hc hE hx, double]

/-! ### The range -/

theorem digitCount_eq (hm : 0 < m) : digitCount m = (Nat.toDigits 10 m).length := if_neg hm.ne'

theorem pow_digitCount_le (hm : 0 < m) : 10 ^ (digitCount m - 1) ≤ m := by
  rw [digitCount_eq hm]
  rcases Nat.lt_or_ge 1 (Nat.toDigits 10 m).length with h | h
  · have hlength := Nat.length_toDigits_le_iff (n := m) (by decide : 1 < 10)
      (show 0 < (Nat.toDigits 10 m).length - 1 by omega)
    omega
  · rw [Nat.sub_eq_zero_of_le h]
    exact hm

theorem lt_pow_digitCount (hm : 0 < m) : m < 10 ^ digitCount m := by
  rw [digitCount_eq hm]
  exact (Nat.length_toDigits_le_iff (by decide) Nat.length_toDigits_pos).mp (le_refl _)

theorem digitCount_pos (hm : 0 < m) : 0 < digitCount m := by
  rw [digitCount_eq hm]
  exact Nat.length_toDigits_pos

theorem ten_zpow_lt_iff {d : ℤ} : (10 : ℚ) ^ d < 10 ^ e ↔ d < e := zpow_lt_zpow_iff_right₀ (by norm_num)

theorem two_pow_le_ten_pow (n : ℕ) : (2 : ℚ) ^ (3 * n) ≤ 10 ^ n := by
  rw [pow_mul]
  exact pow_le_pow_left₀ (by norm_num) (by norm_num) n

theorem ten_zpow_neg_le (n : ℕ) : (10 : ℚ) ^ (-(n : ℤ)) ≤ 2 ^ (-((3 * n : ℕ) : ℤ)) := by
  rw [zpow_neg, zpow_neg, zpow_natCast, zpow_natCast]
  exact inv_anti₀ (by positivity) (two_pow_le_ten_pow n)

/-- The digits of a decimal that is rounded to a double reach at most 400 places from the point. -/
theorem RoundsTo.places (hm : 0 < m) (hx : RoundsTo (m * 10 ^ e) M E)
    (hc : Canonical M E) (hE : E ≤ 971) : -400 ≤ e + digitCount m ∧ e + digitCount m ≤ 400 := by
  have hten : (0 : ℚ) < 10 ^ e := by positivity
  constructor
  · have hlt : (m * 10 ^ e : ℚ) < 10 ^ ((digitCount m : ℤ) + e) := by
      rw [zpow_add₀ (by norm_num), zpow_natCast]
      exact mul_lt_mul_of_pos_right (by exact_mod_cast lt_pow_digitCount hm) hten
    have hlow : (10 : ℚ) ^ (-359 : ℤ) ≤ 2 ^ (-1075 : ℤ) := (ten_zpow_neg_le 359).trans (two_zpow_le (by decide))
    have := ten_zpow_lt_iff.mp (hlow.trans_lt ((hx.lower hc).trans_lt hlt))
    omega
  · have hle : (10 : ℚ) ^ ((digitCount m : ℤ) - 1 + e) ≤ m * 10 ^ e := by
      rw [zpow_add₀ (by norm_num),
        show (digitCount m : ℤ) - 1 = (digitCount m - 1 : ℕ) by have := digitCount_pos hm; omega,
        zpow_natCast]
      exact mul_le_mul_of_nonneg_right (by exact_mod_cast pow_digitCount_le hm) hten.le
    have hhigh : (2 : ℚ) ^ (1024 : ℤ) ≤ 10 ^ (342 : ℤ) :=
      (two_zpow_le (by decide : (1024 : ℤ) ≤ (3 * 342 : ℕ))).trans (two_pow_le_ten_pow 342)
    have := ten_zpow_lt_iff.mp (hle.trans_lt ((hx.upper hc hE).trans_le hhigh))
    omega

/-- A decimal in the interval of a double is read as that double. -/
theorem scientific_eq (hm : 0 < m) (hc : Canonical M E) (hE : E ≤ 971)
    (hx : RoundsTo (m * 10 ^ e) M E) : scientific m e = double .positive hc := by
  obtain ⟨hlow, hhigh⟩ := hx.places hm hc hE
  rw [scientific]
  simp only [hm.ne', decide_false, Bool.false_or, decide_eq_true_eq]
  rw [if_neg (by omega), if_neg (by omega), floatOfScientific_eq hm hc hE hx]

end ContractAudit.Rounding
