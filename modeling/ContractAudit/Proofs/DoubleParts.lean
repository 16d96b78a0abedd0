import Mathlib
import ContractAudit.Decimal.Shortest

/-! # Rounding to doubles

An operation computes a mantissa and how the exact result stands to it; rounding drops digits until it fits.
Taking a finite double apart and putting it together again gives the same double. -/

namespace ContractAudit.Rounding
open Float.Model Float.Model.UnpackedFloat Format
variable {y x : ℚ} {m M : ℕ} {a : Accuracy} {e E : ℤ}
variable {em : ExtendedMantissa} {n : ℕ} {d t : ℤ}

/-- How a number stands to a mantissa with an accuracy: equal to it, or above it and below its successor, on
    one side of the middle between them or in it. -/
def Approximates (y : ℚ) (m : ℕ) : Accuracy → Prop
  | .exact => y = m
  | .inexact .lt => m < y ∧ y < m + 1 / 2
  | .inexact .eq => y = m + 1 / 2
  | .inexact .gt => m + 1 / 2 < y ∧ y < m + 1

/-- The same of a mantissa with its two residual bits. -/
def IsNear (y : ℚ) (em : ExtendedMantissa) : Prop := Approximates y em.mantissa em.accuracy

theorem Approximates.bounds (h : Approximates y m a) : m ≤ y ∧ y < m + 1 := by
  rcases a with _ | _ | _ | _ <;> simp only [Approximates] at h <;> constructor <;> linarith

theorem isNear_ofMantissaAndAccuracy (h : Approximates y m a) : IsNear y (.ofMantissaAndAccuracy m a) := by
  rcases a with _ | _ | _ | _ <;> exact h

theorem mantissa_cases (m : ℕ) : (m : ℚ) = 2 * (m / 2 : ℕ) ∧ m % 2 = 0 ∨ (m : ℚ) = 2 * (m / 2 : ℕ) + 1 ∧ m % 2 = 1 := by
  rcases Nat.mod_two_eq_zero_or_one m with h | h
  · left
    have hm : m = 2 * (m / 2) := by omega
    exact ⟨by exact_mod_cast hm, h⟩
  · right
    have hm : m = 2 * (m / 2) + 1 := by omega
    exact ⟨by exact_mod_cast hm, h⟩

theorem IsNear.shiftRightOne (h : IsNear y em) : IsNear (y / 2) em.shiftRightOne := by
  obtain ⟨m, round, sticky⟩ := em
  rw [ExtendedMantissa.shiftRightOne]
  rcases mantissa_cases m with ⟨hm, hbit⟩ | ⟨hm, hbit⟩ <;> simp only [hbit, Nat.reduceBNe] <;>
    cases round <;> cases sticky <;>
    simp only [IsNear, ExtendedMantissa.accuracy, Approximates, Bool.or_false, Bool.or_true, hm] at h ⊢
  all_goals first | linarith | exact ⟨by linarith, by linarith⟩

theorem IsNear.shiftRight (h : IsNear y em) (n : ℕ) : IsNear (y / 2 ^ n) (em >>> n) := by
  induction n with
  | zero => rwa [pow_zero, div_one]
  | succ n ih =>
    have hstep := ih.shiftRightOne
    rw [div_div, ← pow_succ] at hstep
    exact hstep

/-- The number is nearest to `n`, which is even if the number is as near to another. -/
structure Nearest (y : ℚ) (n : ℕ) : Prop where
  above : n - 1 / 2 ≤ y
  below : y ≤ n + 1 / 2
  even : y = n - 1 / 2 ∨ y = n + 1 / 2 → n % 2 = 0

theorem Nearest.not_succ (h : Nearest y n) : ¬Nearest y (n + 1) := by
  intro h'
  have hy : y = n + 1 / 2 := le_antisymm h.below (by have := h'.above; push_cast at this; linarith)
  have heven := h.even (.inr hy)
  have heven' := h'.even (.inl (by push_cast; linarith))
  omega

theorem Nearest.unique (hm : Nearest y m) (hn : Nearest y n) : m = n := by
  have hle : (m : ℚ) ≤ n + 1 := by linarith [hm.above, hn.below]
  have hge : (n : ℚ) ≤ m + 1 := by linarith [hn.above, hm.below]
  have hle' : m ≤ n + 1 := by exact_mod_cast hle
  have hge' : n ≤ m + 1 := by exact_mod_cast hge
  rcases Nat.lt_trichotomy m n with h | h | h
  · obtain rfl : n = m + 1 := by omega
    exact absurd hn hm.not_succ
  · exact h
  · obtain rfl : m = n + 1 := by omega
    exact absurd hm hn.not_succ

theorem Approximates.nearest (h : Approximates y m a) : Nearest y (a.roundToNearestEven m) := by
  rcases a with _ | _ | _ | _ <;> simp only [Approximates] at h <;> simp only [Accuracy.roundToNearestEven]
  · exact ⟨by linarith, by linarith, fun hy => by rcases hy with hy | hy <;> linarith⟩
  · exact ⟨by linarith, by linarith, fun hy => by rcases hy with hy | hy <;> linarith⟩
  · rcases Nat.mod_two_eq_zero_or_one m with hm | hm
    · rw [hm, Nat.add_zero]
      exact ⟨by linarith, by linarith, fun _ => hm⟩
    · rw [hm]
      exact ⟨by push_cast; linarith, by push_cast; linarith, fun _ => by omega⟩
  · refine ⟨by push_cast; linarith, by push_cast; linarith, fun hy => ?_⟩
    push_cast at hy
    rcases hy with hy | hy <;> linarith

def target (m : ℕ) (e : ℤ) : ℤ := binary64.targetExponent (totalExponent m e)

theorem target_eq (m : ℕ) (e : ℤ) : target m e = max (m.log2 + e - 52) (-1074) := by
  have hmin : binary64.minExponent = -1074 := by decide
  have hbits : binary64.mantissaBits = 53 := by decide
  rw [target, targetExponent, totalExponent, hmin, hbits]
  omega

/-- A number is rounded at an exponent: it has at most 53 digits before the point there, and no fewer unless
    the exponent is the least. -/
structure PlacedAt (x : ℚ) (t : ℤ) : Prop where
  least : -1074 ≤ t
  below : x < 2 ^ 53 * 2 ^ t
  normal : t = -1074 ∨ 2 ^ 52 * 2 ^ t ≤ x

theorem two_zpow_pos (e : ℤ) : (0 : ℚ) < 2 ^ e := zpow_pos (by norm_num) e

theorem two_zpow_add (d e : ℤ) : (2 : ℚ) ^ (d + e) = 2 ^ d * 2 ^ e := zpow_add₀ (by norm_num) d e

theorem two_zpow_le (h : d ≤ e) : (2 : ℚ) ^ d ≤ 2 ^ e := zpow_le_zpow_right₀ (by norm_num) h

theorem two_zpow_lt_iff : (2 : ℚ) ^ d < 2 ^ e ↔ d < e := zpow_lt_zpow_iff_right₀ (by norm_num)

/-- An approximation with digits enough is shifted to the exponent at which the number is rounded. -/
theorem placedAt_target (h : Approximates (x / 2 ^ e) m a) (he : e ≤ target m e) : PlacedAt x (target m e) := by
  obtain ⟨hlow, hhigh⟩ := h.bounds
  rw [le_div_iff₀ (two_zpow_pos e)] at hlow
  rw [div_lt_iff₀ (two_zpow_pos e)] at hhigh
  rw [target_eq] at he ⊢
  have hlog : ((m : ℚ) + 1) * 2 ^ e ≤ 2 ^ ((m.log2 : ℤ) + 1 + e) := by
    have hsucc : m + 1 ≤ 2 ^ (m.log2 + 1) := Nat.lt_log2_self
    have hsucc' : ((m : ℚ) + 1) ≤ 2 ^ ((m.log2 : ℤ) + 1) := by exact_mod_cast hsucc
    rw [two_zpow_add _ e]
    exact mul_le_mul_of_nonneg_right hsucc' (two_zpow_pos e).le
  refine ⟨le_max_right _ _, ?_, ?_⟩
  · calc x < ((m : ℚ) + 1) * 2 ^ e := hhigh
      _ ≤ 2 ^ ((m.log2 : ℤ) + 1 + e) := hlog
      _ ≤ 2 ^ (53 + max ((m.log2 : ℤ) + e - 52) (-1074)) := two_zpow_le (by omega)
      _ = 2 ^ 53 * 2 ^ max ((m.log2 : ℤ) + e - 52) (-1074) := two_zpow_add 53 _
  · rcases le_or_gt ((m.log2 : ℤ) + e - 52) (-1074) with hmin | hmin
    · exact .inl (max_eq_right hmin)
    · right
      rw [max_eq_left hmin.le] at he ⊢
      have hm : m ≠ 0 := by
        rintro rfl
        rw [Nat.log2_zero] at he
        omega
      have hpow : 2 ^ m.log2 ≤ m := Nat.log2_self_le hm
      have hpow' : (2 : ℚ) ^ (m.log2 : ℤ) ≤ m := by exact_mod_cast hpow
      calc (2 : ℚ) ^ 52 * 2 ^ ((m.log2 : ℤ) + e - 52) = 2 ^ (52 + ((m.log2 : ℤ) + e - 52)) := (two_zpow_add 52 _).symm
        _ = 2 ^ (m.log2 : ℤ) * 2 ^ e := by rw [← two_zpow_add]; congr 1; ring
        _ ≤ m * 2 ^ e := mul_le_mul_of_nonneg_right hpow' (two_zpow_pos e).le
        _ ≤ x := hlow

/-- A positive double: the mantissa has 53 digits, or fewer and the least exponent. -/
structure Canonical (M : ℕ) (E : ℤ) : Prop where
  pos : 0 < M
  lt : M < 2 ^ 53
  least : -1074 ≤ E
  normal : 2 ^ 52 ≤ M ∨ E = -1074

/-- The numbers that round to a double. At a power of two the next double below is half as far away. -/
structure RoundsTo (x : ℚ) (M : ℕ) (E : ℤ) : Prop where
  nearest : Nearest (x / 2 ^ E) M
  narrow : M = 2 ^ 52 → -1074 < E → 2 ^ 52 - 1 / 4 ≤ x / 2 ^ E

theorem RoundsTo.below (hx : RoundsTo x M E) (hc : Canonical M E) : x < 2 ^ (53 + E) := by
  have hM : (M : ℚ) + 1 ≤ 2 ^ 53 := by exact_mod_cast hc.lt
  have hhalf := hx.nearest.below
  rw [two_zpow_add, ← div_lt_iff₀ (two_zpow_pos E)]
  norm_num at hM hhalf ⊢
  linarith

theorem PlacedAt.le (ht : PlacedAt x t) (hc : Canonical M E) (hx : RoundsTo x M E) : t ≤ E := by
  rcases ht.normal with h | h
  · exact h ▸ hc.least
  · rw [show (2 : ℚ) ^ 52 = 2 ^ (52 : ℤ) by norm_num, ← two_zpow_add] at h
    have := two_zpow_lt_iff.mp (h.trans_lt (hx.below hc))
    omega

/-- A number of the interval is rounded at the exponent of the double, or, at a power of two, at the one
    below and then up to that power. -/
theorem PlacedAt.cases (ht : PlacedAt x t) (hc : Canonical M E) (hx : RoundsTo x M E) :
    t = E ∨ t = E - 1 ∧ M = 2 ^ 52 ∧ Nearest (x / 2 ^ t) (2 ^ 53) := by
  have hE := two_zpow_pos E
  rcases (ht.le hc hx).eq_or_lt with h | h
  · exact .inl h
  · right
    have hleast := ht.least
    have hnormal : 2 ^ 52 ≤ M := hc.normal.resolve_right (by omega)
    have hxt : x < 2 ^ (53 + t) := by
      rw [two_zpow_add]
      exact_mod_cast ht.below
    have hupper : x / 2 ^ E < 2 ^ 52 := by
      rw [div_lt_iff₀ hE]
      calc x < 2 ^ (53 + t) := hxt
        _ ≤ 2 ^ (52 + E) := two_zpow_le (by omega)
        _ = 2 ^ 52 * 2 ^ E := two_zpow_add 52 E
    have hpower : M = 2 ^ 52 := by
      have hlow := hx.nearest.above
      have hlt : (M : ℚ) < 2 ^ 52 + 1 := by linarith
      have : M < 2 ^ 52 + 1 := by exact_mod_cast hlt
      omega
    have hquarter := hx.narrow hpower (by omega)
    have ht' : t = E - 1 := by
      have hlow : (2 : ℚ) ^ (51 + E) < x := by
        rw [two_zpow_add, ← lt_div_iff₀ hE]
        norm_num at hquarter ⊢
        linarith
      have := two_zpow_lt_iff.mp (hlow.trans hxt)
      omega
    have hscale : x / 2 ^ t = 2 * (x / 2 ^ E) := by
      rw [ht', zpow_sub_one₀ (by norm_num : (2 : ℚ) ≠ 0)]
      field_simp
    refine ⟨ht', hpower, ?_⟩
    rw [hscale]
    exact ⟨by push_cast; linarith, by push_cast; linarith, fun _ => by norm_num⟩

theorem shiftToTargetExponent_eq (a : Accuracy) (he : e ≤ target m e) : shiftToTargetExponent .binary64 m e a =
      (ExtendedMantissa.ofMantissaAndAccuracy m a >>> (target m e - e).toNat, target m e) := by
  rw [shiftToTargetExponent, shiftToExponent]
  refine Prod.ext rfl ?_
  change e + ((target m e - e).toNat : ℤ) = target m e
  omega

theorem shiftToTargetExponent_fits (hm : m < 2 ^ 53) (he : -1074 ≤ e) :
    shiftToTargetExponent .binary64 m e .exact = (⟨m, false, false⟩, e) := by
  have hlog : m.log2 ≤ 52 := by
    rcases Nat.eq_zero_or_pos m with rfl | hpos
    · decide
    · have := (Nat.log2_lt hpos.ne').mpr hm
      omega
  have hshift : (target m e - e).toNat = 0 := by
    rw [target_eq]
    omega
  rw [shiftToTargetExponent, shiftToExponent]
  change (ExtendedMantissa.mk m false false >>> (target m e - e).toNat, e + ((target m e - e).toNat : ℤ)) = _
  rw [hshift, Nat.cast_zero, Int.add_zero]
  rfl

theorem shiftToTargetExponent_carry (he : -1074 ≤ e) :
    shiftToTargetExponent .binary64 (2 ^ 53) e .exact = (⟨2 ^ 52, false, false⟩, e + 1) := by
  have hshift : (target (2 ^ 53) e - e).toNat = 1 := by
    rw [target_eq, Nat.log2_two_pow]
    omega
  rw [shiftToTargetExponent, shiftToExponent]
  change (ExtendedMantissa.mk (2 ^ 53) false false >>> (target (2 ^ 53) e - e).toNat,
    e + ((target (2 ^ 53) e - e).toNat : ℤ)) = _
  rw [hshift]
  rfl

theorem roundWithAccuracy_eq (h : Approximates (x / 2 ^ e) m a)
    (he : e ≤ target m e) (hc : Canonical M E) (hx : RoundsTo x M E) (s : Sign) :
    roundWithAccuracy .binary64 s m e a = .finite s M E hc.pos := by
  have hplaced := placedAt_target h he
  have hnear := (isNear_ofMantissaAndAccuracy h).shiftRight (target m e - e).toNat
  have hscale : x / 2 ^ e / 2 ^ (target m e - e).toNat = x / 2 ^ target m e := by
    rw [div_div, ← zpow_natCast, ← two_zpow_add]
    congr 2
    omega
  rw [hscale] at hnear
  have hrounded := hnear.nearest
  rw [roundWithAccuracy, shiftToTargetExponent_eq a he]
  change Nearest _ (ExtendedMantissa.roundedMantissa _) at hrounded
  generalize ExtendedMantissa.ofMantissaAndAccuracy m a >>> (target m e - e).toNat = em at hrounded
  generalize target m e = t at hplaced hrounded
  rcases hplaced.cases hc hx with rfl | ⟨rfl, rfl, hpower⟩
  · dsimp only
    rw [hrounded.unique hx.nearest, shiftToTargetExponent_fits hc.lt hc.least]
    exact dif_neg hc.pos.ne'
  · dsimp only
    rw [hrounded.unique hpower, shiftToTargetExponent_carry hplaced.least]
    simp only [Int.sub_add_cancel]
    exact dif_neg hc.pos.ne'

variable {M bits : ℕ} {E : ℤ}

section fields

variable (b : BitVec binary64.numBits)

theorem toNat_unpackMantissa : (unpackMantissa b).toNat = b.toNat % 2 ^ 52 := by
  simp [unpackMantissa]

theorem toNat_unpackExponent : (unpackExponent b).toNat = b.toNat / 2 ^ 52 % 2 ^ 11 := by
  simp [unpackExponent, Nat.shiftRight_eq_div_pow]

theorem toNat_unpackSign : (unpackSign b).toNat = b.toNat / 2 ^ 63 % 2 := by
  simp [unpackSign, Nat.shiftRight_eq_div_pow]

theorem toNat_packComponents (s : Sign) (e : BitVec 11) (f : BitVec 52) :
    (packComponents .binary64 s e f).toNat = s.toBitVec.toNat * 2 ^ 63 + e.toNat * 2 ^ 52 + f.toNat := by
  rw [packComponents, BitVec.toNat_append, ← Nat.shiftLeft_add_eq_or_of_lt f.isLt, BitVec.toNat_append,
    ← Nat.shiftLeft_add_eq_or_of_lt e.isLt, Nat.shiftLeft_eq, Nat.shiftLeft_eq]
  ring

end fields

/-- The field of the exponent: none for a mantissa of fewer than 53 digits. -/
def exponentField (M : ℕ) (E : ℤ) : ℕ := if M < 2 ^ 52 then 0 else (E + 1075).toNat

theorem Canonical.log2_eq (hc : Canonical M E) : M.log2 + 1 = 53 ↔ 2 ^ 52 ≤ M := by
  have hlog : M.log2 < 53 := (Nat.log2_lt hc.pos.ne').mpr hc.lt
  rw [← Nat.le_log2 hc.pos.ne']
  omega

theorem toNat_pack (hc : Canonical M E) (hE : E ≤ 971) (s : Sign) :
    (pack .binary64 (.finite s M E hc.pos)).toNat =
      s.toBitVec.toNat * 2 ^ 63 + exponentField M E * 2 ^ 52 + M % 2 ^ 52 := by
  have hlow := hc.least
  have hbias : (E + binary64.exponentBias + binary64.mantissaBitsWithoutImplicit).toNat = (E + 1075).toNat := by
    congr 1
    change E + 1023 + 52 = _
    omega
  rw [UnpackedFloat.pack, hbias]
  have hfinite : ¬2 ^ binary64.exponentBits ≤ (E + 1075).toNat + 1 := by
    change ¬2048 ≤ _
    omega
  have hbits : M.log2 + 1 = binary64.mantissaBits ↔ 2 ^ 52 ≤ M := hc.log2_eq
  simp only [if_neg hfinite, hbits]
  split
  next hM =>
    rw [toNat_packComponents, exponentField, if_neg (by omega), BitVec.toNat_ofNat, BitVec.toNat_ofNat,
      Nat.mod_eq_of_lt (show (E + 1075).toNat < 2 ^ 11 by omega)]
  next hM =>
    rw [toNat_packComponents, exponentField, if_pos (by omega), BitVec.toNat_ofNat]
    rfl

open Decimal

theorem ofBits_subnormal (h : bits / 2 ^ 52 % 2 ^ 11 = 0) :
    Binary.ofBits bits = ⟨bits % 2 ^ 52, -1074, false⟩ := if_pos h

theorem ofBits_normal (h : bits / 2 ^ 52 % 2 ^ 11 ≠ 0) :
    Binary.ofBits bits = ⟨bits % 2 ^ 52 + 2 ^ 52, (bits / 2 ^ 52 % 2 ^ 11 : ℕ) - 1075,
      bits % 2 ^ 52 == 0 && bits / 2 ^ 52 % 2 ^ 11 != 1⟩ := if_neg h

theorem canonical_ofBits (hfinite : bits / 2 ^ 52 % 2 ^ 11 ≠ 2047) (hpos : 0 < (Binary.ofBits bits).mantissa) :
    Canonical (Binary.ofBits bits).mantissa (Binary.ofBits bits).exponent ∧ (Binary.ofBits bits).exponent ≤ 971 := by
  have he : bits / 2 ^ 52 % 2 ^ 11 < 2 ^ 11 := Nat.mod_lt _ (by decide)
  have hf : bits % 2 ^ 52 < 2 ^ 52 := Nat.mod_lt _ (by decide)
  by_cases h : bits / 2 ^ 52 % 2 ^ 11 = 0
  · rw [ofBits_subnormal h] at hpos ⊢
    exact ⟨⟨hpos, by dsimp only; omega, le_refl _, .inr rfl⟩, by dsimp only; omega⟩
  · rw [ofBits_normal h]
    refine ⟨⟨by dsimp only; omega, by dsimp only; omega, by dsimp only; omega, .inl ?_⟩, by dsimp only; omega⟩
    dsimp only
    omega

theorem unpack_eq (b : BitVec binary64.numBits) (hfinite : b.toNat / 2 ^ 52 % 2 ^ 11 ≠ 2047)
    (hpos : 0 < (Binary.ofBits b.toNat).mantissa) : unpack .binary64 b =
      .finite (.ofBitVec (unpackSign b)) (Binary.ofBits b.toNat).mantissa (Binary.ofBits b.toNat).exponent hpos := by
  have hnan : unpackExponent b ≠ -BitVec.ofNat binary64.exponentBits 1 := by
    intro h
    refine hfinite ?_
    rw [← toNat_unpackExponent, h]
    rfl
  rw [UnpackedFloat.unpack]
  simp only [if_neg hnan]
  by_cases h : b.toNat / 2 ^ 52 % 2 ^ 11 = 0
  · have hexponent : unpackExponent b = BitVec.ofNat binary64.exponentBits 0 :=
      BitVec.eq_of_toNat_eq (by rw [toNat_unpackExponent, h]; rfl)
    have hmantissa : unpackMantissa b ≠ BitVec.ofNat binary64.mantissaBitsWithoutImplicit 0 := by
      intro h0
      rw [ofBits_subnormal h, ← toNat_unpackMantissa, h0] at hpos
      exact absurd hpos (by decide)
    rw [if_pos hexponent, dif_neg hmantissa, finite.injEq, toNat_unpackMantissa, toNat_unpackExponent, h,
      ofBits_subnormal h]
    exact ⟨rfl, rfl, rfl⟩
  · have hexponent : unpackExponent b ≠ BitVec.ofNat binary64.exponentBits 0 := by
      intro h0
      rw [← toNat_unpackExponent, h0] at h
      exact h rfl
    have himplicit : (1#1 ++ unpackMantissa b).toNat = b.toNat % 2 ^ 52 + 2 ^ 52 := by
      rw [BitVec.toNat_append, ← Nat.shiftLeft_add_eq_or_of_lt (unpackMantissa b).isLt, toNat_unpackMantissa, add_comm]
      rfl
    rw [if_neg hexponent, finite.injEq, himplicit, toNat_unpackExponent, ofBits_normal h]
    exact ⟨rfl, rfl, rfl⟩

theorem fields_pack (hc : Canonical M E) (hE : E ≤ 971) {sign : ℕ} (hsign : sign < 2)
    (hbits : bits = sign * 2 ^ 63 + exponentField M E * 2 ^ 52 + M % 2 ^ 52) :
    bits / 2 ^ 52 % 2 ^ 11 ≠ 2047 ∧ bits / 2 ^ 63 % 2 = sign ∧ (Binary.ofBits bits).mantissa = M ∧
      (Binary.ofBits bits).exponent = E := by
  have hlt := hc.lt
  have hleast := hc.least
  by_cases hM : M < 2 ^ 52
  · have hE' : E = -1074 := hc.normal.resolve_left (by omega)
    rw [exponentField, if_pos hM] at hbits
    have hfield : bits / 2 ^ 52 % 2 ^ 11 = 0 := by omega
    rw [ofBits_subnormal hfield]
    refine ⟨by omega, by omega, ?_, hE'.symm⟩
    dsimp only
    omega
  · rw [exponentField, if_neg hM] at hbits
    have hfield : bits / 2 ^ 52 % 2 ^ 11 = (E + 1075).toNat := by omega
    rw [ofBits_normal (by omega)]
    refine ⟨by omega, by omega, ?_, ?_⟩
    · dsimp only
      omega
    · dsimp only
      omega

theorem unpack_pack (hc : Canonical M E) (hE : E ≤ 971) (s : Sign) :
    unpack .binary64 (pack .binary64 (.finite s M E hc.pos)) = .finite s M E hc.pos := by
  have hbits := toNat_pack hc hE s
  generalize pack .binary64 (.finite s M E hc.pos) = b at hbits
  obtain ⟨hfinite, hsign, hmantissa, hexponent⟩ := fields_pack hc hE s.toBitVec.isLt hbits
  have hs : unpackSign b = s.toBitVec := BitVec.eq_of_toNat_eq (by rw [toNat_unpackSign, hsign])
  rw [unpack_eq b hfinite (by rw [hmantissa]; exact hc.pos), finite.injEq, hs, Sign.ofBitVec_toBitVec]
  exact ⟨rfl, hmantissa, hexponent⟩

def double (s : Sign) {M : ℕ} {E : ℤ} (hc : Canonical M E) : Float := .ofModel (.pack (.finite s M E hc.pos))

theorem unpack_double (hc : Canonical M E) (hE : E ≤ 971) (s : Sign) :
    (double s hc).toModel.unpack = .finite s M E hc.pos := unpack_pack hc hE s

theorem neg_double (hc : Canonical M E) (hE : E ≤ 971) : -double .positive hc = double .negative hc := by
  change Float.ofModel (.pack (double .positive hc).toModel.unpack.neg) = _
  rw [unpack_double hc hE]
  rfl

theorem ofBits_mod (bits : ℕ) : Binary.ofBits (bits % 2 ^ 63) = Binary.ofBits bits := by
  have hexponent : bits % 2 ^ 63 / 2 ^ 52 % 2 ^ 11 = bits / 2 ^ 52 % 2 ^ 11 := by omega
  have hmantissa : bits % 2 ^ 63 % 2 ^ 52 = bits % 2 ^ 52 := by omega
  by_cases h : bits / 2 ^ 52 % 2 ^ 11 = 0
  · rw [ofBits_subnormal h, ofBits_subnormal (hexponent.trans h), hmantissa]
  · rw [ofBits_normal h, ofBits_normal (hexponent ▸ h), hmantissa, hexponent]

theorem ofBitVec_unpackSign (b : BitVec binary64.numBits) :
    Sign.ofBitVec (unpackSign b) = if 2 ^ 63 ≤ b.toNat then .negative else .positive := by
  have hlt : b.toNat < 2 ^ 64 := b.isLt
  have hsign := toNat_unpackSign b
  by_cases h : 2 ^ 63 ≤ b.toNat
  · have hone : unpackSign b = 1#1 := BitVec.eq_of_toNat_eq (by rw [hsign, BitVec.toNat_ofNat]; omega)
    rw [if_pos h, hone]
    rfl
  · have hzero : unpackSign b = 0#1 := BitVec.eq_of_toNat_eq (by rw [hsign, BitVec.toNat_ofNat]; omega)
    rw [if_neg h, hzero]
    rfl

theorem exists_eq_double {x : Float} (hfinite : absoluteBits x < 0x7ff0000000000000) (hne : absoluteBits x ≠ 0) :
    ∃ hc : Canonical (Binary.ofBits (absoluteBits x)).mantissa (Binary.ofBits (absoluteBits x)).exponent,
      (Binary.ofBits (absoluteBits x)).exponent ≤ 971 ∧
        x = double (if isNegative x then .negative else .positive) hc := by
  obtain ⟨⟨bits, hvalid⟩⟩ := x
  obtain ⟨b, hb⟩ : ∃ b : BitVec binary64.numBits, UInt64.ofBitVec b = bits := ⟨bits.toBitVec, rfl⟩
  subst hb
  have habsolute : absoluteBits (.ofModel ⟨UInt64.ofBitVec b, hvalid⟩) = b.toNat % 2 ^ 63 := rfl
  rw [habsolute] at hfinite hne ⊢
  rw [ofBits_mod]
  have hexponent : b.toNat / 2 ^ 52 % 2 ^ 11 ≠ 2047 := by omega
  have hpos : 0 < (Binary.ofBits b.toNat).mantissa := by
    by_cases h : b.toNat / 2 ^ 52 % 2 ^ 11 = 0
    · rw [ofBits_subnormal h]
      dsimp only
      omega
    · rw [ofBits_normal h]
      exact Nat.add_pos_right _ (by decide)
  obtain ⟨hc, hE⟩ := canonical_ofBits hexponent hpos
  have hsign : (if isNegative (.ofModel ⟨UInt64.ofBitVec b, hvalid⟩) then Sign.negative else .positive) =
      .ofBitVec (unpackSign b) := by
    rw [ofBitVec_unpackSign]
    simp only [isNegative, decide_eq_true_eq]
    rfl
  refine ⟨hc, hE, ?_⟩
  rw [hsign, double, ← unpack_eq b hexponent hpos, Float.ofModel.injEq, Float.Model.mk.injEq]
  exact congrArg UInt64.ofBitVec (pack_unpack_of_valid hvalid).symm

end ContractAudit.Rounding
