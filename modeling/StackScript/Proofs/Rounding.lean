/-
# StackScript.Proofs.Rounding — the double nearest to a decimal

`Rounds q magnitude` says in rational numbers which double is nearest to `q`: in the
unit of `q`, which is the last mantissa bit of a double of its size, the mantissa is the
nearest integer. It names one magnitude for every `q` (`Rounds.unique`, `exists_rounds`).

Fractions and decimals are read by it (`ofRatio?_eq`, `Decimal.toFloat?_eq`), so what a
decimal reads as depends on its value alone, and a decimal whose powers of ten are never
computed reads as if they had been. A double is nearest to itself (`rounds_self`), so the
double of an integer is the one that is equal to it, where there is one (`ofInt_beq`).
-/
import Mathlib
import StackScript.Proofs.Number

namespace StackScript.Number

set_option autoImplicit false

/-! ## The nearest integer -/

/-- The integer nearest to a fraction, a tie going to the even one. -/
def nearest (q : ℚ) : ℕ :=
  if q - ⌊q⌋₊ < 1 / 2 then ⌊q⌋₊
  else if 1 / 2 < q - ⌊q⌋₊ then ⌊q⌋₊ + 1
  else ⌊q⌋₊ + ⌊q⌋₊ % 2

theorem floor_le_nearest (q : ℚ) : ⌊q⌋₊ ≤ nearest q := by
  unfold nearest
  split_ifs <;> omega

theorem nearest_le_floor (q : ℚ) : nearest q ≤ ⌊q⌋₊ + 1 := by
  unfold nearest
  split_ifs <;> omega

theorem nearest_natCast (n : ℕ) : nearest n = n := by
  simp [nearest]

theorem nearest_small {q : ℚ} (small : q < 1 / 2) : nearest q = 0 := by
  have floor : ⌊q⌋₊ = 0 := Nat.floor_eq_zero.mpr (small.trans (by norm_num))
  rw [nearest, floor, Nat.cast_zero, sub_zero, if_pos small]

theorem roundDiv_eq (num : ℕ) {den : ℕ} (positive : 0 < den) :
    roundDiv num den = nearest (num / den : ℚ) := by
  have scale : (0 : ℚ) < den := by exact_mod_cast positive
  have floor : ⌊(num / den : ℚ)⌋₊ = num / den := Nat.floor_div_eq_div num den
  have rest : (num / den : ℚ) - (num / den : ℕ) = (num % den : ℕ) / den := by
    have whole : (den : ℚ) * (num / den : ℕ) + (num % den : ℕ) = num := by
      exact_mod_cast Nat.div_add_mod num den
    rw [← whole]
    field_simp
    ring
  have below : ((num % den : ℕ) / den : ℚ) < 1 / 2 ↔ 2 * (num % den) < den := by
    rw [div_lt_div_iff₀ scale (by norm_num)]
    norm_cast
    omega
  have above : (1 / 2 : ℚ) < (num % den : ℕ) / den ↔ den < 2 * (num % den) := by
    rw [div_lt_div_iff₀ (by norm_num) scale]
    norm_cast
    omega
  unfold roundDiv nearest
  simp only [floor, rest, below, above]

/-! ## Units -/

theorem inUnits_ratio {base : ℕ} (some : base ≠ 0) (num den : ℕ) (exponent : ℤ) :
    ((inUnits base num den exponent).1 : ℚ) / (inUnits base num den exponent).2 =
      num / den / (base : ℚ) ^ exponent := by
  have nonzero : (base : ℚ) ≠ 0 := by exact_mod_cast some
  have split : (base : ℚ) ^ exponent = base ^ exponent.toNat / base ^ (-exponent).toNat := by
    rw [← zpow_natCast, ← zpow_natCast, ← zpow_sub₀ nonzero]
    congr 1
    omega
  rw [split]
  simp only [inUnits, Nat.pow_eq, Nat.cast_mul, Nat.cast_pow]
  rw [div_div_eq_mul_div, mul_comm (num / den : ℚ), ← mul_div_assoc, div_div, mul_comm (num : ℚ)]

theorem inUnits_den_pos {base : ℕ} (some : base ≠ 0) (num : ℕ) {den : ℕ} (positive : 0 < den)
    (exponent : ℤ) : 0 < (inUnits base num den exponent).2 :=
  Nat.mul_pos positive (Nat.pow_pos (Nat.pos_of_ne_zero some))

/-- The exponent of the last mantissa bit of a double near `q`. -/
structure UnitOf (q : ℚ) (exponent : ℤ) : Prop where
  least : -1074 ≤ exponent
  fits : q < 2 ^ (exponent + 53)
  fills : exponent = -1074 ∨ 2 ^ (exponent + 52) ≤ q

theorem two_zpow_le {a b : ℤ} : (2 : ℚ) ^ a ≤ 2 ^ b ↔ a ≤ b :=
  zpow_le_zpow_iff_right₀ (by norm_num)

theorem two_zpow_lt {a b : ℤ} : (2 : ℚ) ^ a < 2 ^ b ↔ a < b :=
  zpow_lt_zpow_iff_right₀ (by norm_num)

theorem two_zpow_add (a b : ℤ) : (2 : ℚ) ^ (a + b) = 2 ^ a * 2 ^ b :=
  zpow_add₀ (by norm_num) a b

theorem two_zpow_pos (a : ℤ) : (0 : ℚ) < 2 ^ a :=
  zpow_pos (by norm_num) a

namespace UnitOf

variable {q : ℚ} {e e' : ℤ}

theorem le (unit : UnitOf q e) (other : UnitOf q e') : e' ≤ e := by
  rcases other.fills with rfl | fills
  · exact unit.least
  · have lower := two_zpow_lt.mp (fills.trans_lt unit.fits)
    omega

theorem unique (unit : UnitOf q e) (other : UnitOf q e') : e = e' :=
  le_antisymm (other.le unit) (unit.le other)

end UnitOf

/-- A fraction lies between the powers of two that its logarithms give. -/
theorem ratio_bounds {num den : ℕ} (some : num ≠ 0) (positive : 0 < den) :
    (2 : ℚ) ^ ((num.log2 : ℤ) - den.log2 - 1) ≤ num / den ∧
      (num / den : ℚ) < 2 ^ ((num.log2 : ℤ) - den.log2 + 1) := by
  have scale : (0 : ℚ) < den := by exact_mod_cast positive
  have numLow : (2 : ℚ) ^ (num.log2 : ℤ) ≤ num := by
    exact_mod_cast Nat.log2_self_le some
  have numHigh : (num : ℚ) < 2 ^ ((num.log2 : ℤ) + 1) := by
    exact_mod_cast Nat.lt_log2_self
  have denLow : (2 : ℚ) ^ (den.log2 : ℤ) ≤ den := by
    exact_mod_cast Nat.log2_self_le positive.ne'
  have denHigh : (den : ℚ) ≤ 2 ^ ((den.log2 : ℤ) + 1) := by
    exact_mod_cast Nat.lt_log2_self.le
  constructor
  · rw [le_div_iff₀ scale]
    calc (2 : ℚ) ^ ((num.log2 : ℤ) - den.log2 - 1) * den
        ≤ 2 ^ ((num.log2 : ℤ) - den.log2 - 1) * 2 ^ ((den.log2 : ℤ) + 1) := by
          exact mul_le_mul_of_nonneg_left denHigh (two_zpow_pos _).le
      _ = 2 ^ (num.log2 : ℤ) := by
          rw [← two_zpow_add]
          congr 1
          omega
      _ ≤ num := numLow
  · rw [div_lt_iff₀ scale]
    calc (num : ℚ) < 2 ^ ((num.log2 : ℤ) + 1) := numHigh
      _ = 2 ^ ((num.log2 : ℤ) - den.log2 + 1) * 2 ^ (den.log2 : ℤ) := by
          rw [← two_zpow_add]
          congr 1
          omega
      _ ≤ 2 ^ ((num.log2 : ℤ) - den.log2 + 1) * den :=
          mul_le_mul_of_nonneg_left denLow (two_zpow_pos _).le

theorem unitExponent_unitOf {num den : ℕ} (some : num ≠ 0) (positive : 0 < den) :
    UnitOf (num / den) (unitExponent num den) := by
  obtain ⟨low, high⟩ := ratio_bounds some positive
  have fits (guess : ℤ) :
      (inUnits 2 num den guess).1 / (inUnits 2 num den guess).2 < 2 * fieldUnit ↔
        (num / den : ℚ) < 2 ^ (guess + 53) := by
    have scale := two_zpow_pos guess
    rw [← Nat.floor_div_eq_div (K := ℚ), Nat.floor_lt (by positivity), inUnits_ratio (by decide),
      div_lt_iff₀ (by exact_mod_cast scale), two_zpow_add, mul_comm]
    norm_num [fieldUnit]
  unfold unitExponent
  generalize guessed : max ((num.log2 : ℤ) - den.log2 - 53) (-1074) = guess
  simp only [fits]
  split_ifs with small
  · refine ⟨by omega, small, ?_⟩
    by_cases bottom : guess = -1074
    · exact .inl bottom
    · refine .inr (le_trans (two_zpow_le.mpr ?_) low)
      omega
  · refine ⟨by omega, high.trans_le (two_zpow_le.mpr ?_), .inr ?_⟩
    · omega
    · have large := not_lt.mp small
      have same : guess + 1 + 52 = guess + 53 := by omega
      rwa [same]

/-! ## Rounding -/

/-- The double nearest to `q`, a tie going to the even mantissa, has these magnitude bits. -/
def Rounds (q : ℚ) (magnitude : ℕ) : Prop :=
  ∃ unit, UnitOf q unit ∧ magnitude = (unit + 1074).toNat * fieldUnit + nearest (q / 2 ^ unit)

theorem Rounds.unique {q : ℚ} {magnitude magnitude' : ℕ} (rounds : Rounds q magnitude)
    (other : Rounds q magnitude') : magnitude = magnitude' := by
  obtain ⟨unit, isUnit, rfl⟩ := rounds
  obtain ⟨unit', isUnit', rfl⟩ := other
  rw [isUnit.unique isUnit']

/-- What is far below the smallest positive double rounds to zero. -/
theorem rounds_small {q : ℚ} (small : q < 2 ^ (-1075 : ℤ)) : Rounds q 0 := by
  refine ⟨-1074, ⟨le_rfl, small.trans (two_zpow_lt.mpr (by decide)), .inl rfl⟩, ?_⟩
  have scaled : q / 2 ^ (-1074 : ℤ) < 1 / 2 := by
    rw [div_lt_iff₀ (two_zpow_pos _)]
    refine small.trans_eq ?_
    rw [show (-1075 : ℤ) = -1 + -1074 by decide, two_zpow_add]
    norm_num
  rw [nearest_small scaled]
  decide

/-- What is above all doubles has the bits of none. -/
theorem Rounds.large {q : ℚ} {magnitude : ℕ} (rounds : Rounds q magnitude)
    (large : 2 ^ (1024 : ℤ) ≤ q) : infiniteMagnitude ≤ magnitude := by
  obtain ⟨unit, isUnit, rfl⟩ := rounds
  have high := two_zpow_lt.mp (large.trans_lt isUnit.fits)
  have fills := isUnit.fills.resolve_left (by omega)
  have mantissa : fieldUnit ≤ nearest (q / 2 ^ unit) := by
    refine le_trans (Nat.le_floor ?_) (floor_le_nearest _)
    rw [le_div_iff₀ (two_zpow_pos _)]
    refine le_trans (le_of_eq ?_) fills
    rw [two_zpow_add, mul_comm]
    norm_num [fieldUnit]
  have field : 2046 ≤ (unit + 1074).toNat := by omega
  calc infiniteMagnitude = 2046 * fieldUnit + fieldUnit := by decide
    _ ≤ (unit + 1074).toNat * fieldUnit + nearest (q / 2 ^ unit) :=
      Nat.add_le_add (Nat.mul_le_mul_right _ field) mantissa

/-- What is well inside the doubles has the bits of a finite one. -/
theorem Rounds.finite {q : ℚ} {magnitude : ℕ} (rounds : Rounds q magnitude)
    (inside : q < 2 ^ (1023 : ℤ)) : magnitude < infiniteMagnitude := by
  obtain ⟨unit, isUnit, rfl⟩ := rounds
  have field : (unit + 1074).toNat ≤ 2044 := by
    rcases isUnit.fills with rfl | fills
    · decide
    · have low := two_zpow_lt.mp (fills.trans_lt inside)
      omega
  have mantissa : nearest (q / 2 ^ unit) ≤ 2 * fieldUnit := by
    refine (nearest_le_floor _).trans (Nat.succ_le_of_lt (Nat.floor_lt' (by decide) |>.mpr ?_))
    rw [div_lt_iff₀ (two_zpow_pos _)]
    refine isUnit.fits.trans_eq ?_
    rw [two_zpow_add, mul_comm]
    norm_num [fieldUnit]
  calc (unit + 1074).toNat * fieldUnit + nearest (q / 2 ^ unit)
      ≤ 2044 * fieldUnit + 2 * fieldUnit :=
        Nat.add_le_add (Nat.mul_le_mul_right _ field) mantissa
    _ < infiniteMagnitude := by decide

theorem rounds_magnitudeOfRatio {num den : ℕ} (some : num ≠ 0) (positive : 0 < den) :
    Rounds (num / den) (magnitudeOfRatio num den) := by
  refine ⟨_, unitExponent_unitOf some positive, ?_⟩
  have two : (2 : ℕ) ≠ 0 := by decide
  unfold magnitudeOfRatio
  dsimp only
  rw [roundDiv_eq _ (inUnits_den_pos two _ positive _), inUnits_ratio two, Nat.cast_ofNat]

theorem rounds_zero : Rounds 0 0 :=
  rounds_small (two_zpow_pos _)

theorem exists_rounds {q : ℚ} (positive : 0 ≤ q) : ∃ magnitude, Rounds q magnitude := by
  obtain ⟨num, den, below, rfl⟩ : ∃ num den : ℕ, 0 < den ∧ q = num / den := by
    obtain ⟨num, numbered⟩ := Int.eq_ofNat_of_zero_le (Rat.num_nonneg.mpr positive)
    have whole := Rat.num_div_den q
    rw [numbered, Int.cast_natCast] at whole
    exact ⟨num, q.den, q.den_pos, whole.symm⟩
  by_cases none : num = 0
  · exact ⟨0, by rw [none]; simpa using rounds_zero⟩
  · exact ⟨_, rounds_magnitudeOfRatio none below⟩

/-- The finite double with the given magnitude, if it is one. -/
def ofMagnitude? (negative : Bool) (magnitude : ℕ) : Option Float :=
  if magnitude < infiniteMagnitude then some (ofMagnitude negative magnitude) else none

theorem ofRatio?_eq (negative : Bool) {num den magnitude : ℕ} (positive : 0 < den)
    (rounds : Rounds (num / den) magnitude) :
    ofRatio? negative num den = ofMagnitude? negative magnitude := by
  unfold ofRatio?
  split_ifs with none
  · have zero : magnitude = 0 := rounds.unique (by rw [none]; simpa using rounds_zero)
    rw [zero]
    rfl
  · rw [rounds.unique (rounds_magnitudeOfRatio none positive)]
    rfl

/-! ## Decimals -/

namespace Decimal

/-- The value of a decimal without its sign. -/
def magnitude (d : Decimal) : ℚ :=
  d.digits * 10 ^ d.exponent

theorem magnitude_nonneg (d : Decimal) : 0 ≤ d.magnitude :=
  mul_nonneg (Nat.cast_nonneg _) (zpow_nonneg (by norm_num) _)

theorem two_le_ten {k : ℤ} (positive : 0 ≤ k) : (2 : ℚ) ^ (3 * k) ≤ 10 ^ k := by
  rw [zpow_mul]
  exact zpow_le_zpow_left₀ positive (by norm_num) (by norm_num)

/-- A power of ten above all doubles. -/
theorem magnitude_large {d : Decimal} (some : d.digits ≠ 0) (large : 400 < d.exponent) :
    2 ^ (1024 : ℤ) ≤ d.magnitude := by
  have one : (1 : ℚ) ≤ d.digits := by exact_mod_cast Nat.one_le_iff_ne_zero.mpr some
  calc (2 : ℚ) ^ (1024 : ℤ) ≤ 2 ^ (3 * d.exponent) := two_zpow_le.mpr (by omega)
    _ ≤ 10 ^ d.exponent := two_le_ten (by omega)
    _ ≤ d.magnitude := le_mul_of_one_le_left (zpow_nonneg (by norm_num) _) one

/-- A decimal is below the power of ten that its digits reach. -/
theorem magnitude_small {d : Decimal}
    (small : d.exponent + (Nat.toDigits 10 d.digits).length < -400) :
    d.magnitude < 2 ^ (-1075 : ℤ) := by
  generalize counted : (Nat.toDigits 10 d.digits).length = length at small
  have below : d.digits < 10 ^ length := by
    have bound := (Nat.length_toDigits_le_iff (n := d.digits) (by decide)
      (by rw [← counted]; exact Nat.length_toDigits_pos)).mp counted.le
    exact bound
  have ten : (0 : ℚ) < 10 ^ d.exponent := zpow_pos (by norm_num) _
  calc d.magnitude < 10 ^ length * 10 ^ d.exponent :=
        mul_lt_mul_of_pos_right (by exact_mod_cast below) ten
    _ = (10 ^ (-(d.exponent + length)))⁻¹ := by
        rw [← zpow_natCast, ← zpow_add₀ (by norm_num), zpow_neg, inv_inv]
        congr 1
        omega
    _ ≤ (2 ^ (3 * -(d.exponent + length)))⁻¹ :=
        inv_anti₀ (two_zpow_pos _) (two_le_ten (by omega))
    _ ≤ 2 ^ (-1075 : ℤ) := by
        rw [← zpow_neg]
        exact two_zpow_le.mpr (by omega)

/-- A decimal reads as the double nearest to its value. -/
theorem toFloat?_eq (d : Decimal) {bits : ℕ} (rounds : Rounds d.magnitude bits) :
    d.toFloat? = ofMagnitude? d.negative bits := by
  have ratio : ((inUnits 10 d.digits 1 (-d.exponent)).1 : ℚ) / (inUnits 10 d.digits 1 (-d.exponent)).2 =
      d.magnitude := by
    rw [inUnits_ratio (by decide), magnitude, zpow_neg]
    simp
  unfold toFloat?
  split_ifs with none large small
  · have zero : d.magnitude = 0 := by simp [magnitude, none]
    rw [zero] at rounds
    rw [rounds.unique rounds_zero]
    rfl
  · have beyond := rounds.large (magnitude_large none large)
    rw [ofMagnitude?, if_neg (not_lt.mpr beyond)]
  · rw [rounds.unique (rounds_small (magnitude_small small))]
    rfl
  · exact ofRatio?_eq _ (inUnits_den_pos (by decide) _ (by decide) _) (by rwa [ratio])

end Decimal

/-! ## Doubles -/

/-- A double is nearest to itself. -/
theorem rounds_self {x : Float} {negative : Bool} {mantissa : ℕ} {exponent : ℤ}
    (found : parts x = .finite negative mantissa exponent) :
    Rounds (mantissa * 2 ^ exponent) (x.toBits.toNat % signBit) := by
  have made := finiteParts found
  have scale := two_zpow_pos exponent
  refine ⟨exponent, ⟨made.least, ?_, ?_⟩, ?_⟩
  · rw [add_comm, two_zpow_add]
    refine mul_lt_mul_of_pos_right ?_ scale
    exact_mod_cast made.fits
  · refine made.fills.imp_right fun fills => ?_
    rw [add_comm, two_zpow_add]
    refine mul_le_mul_of_nonneg_right ?_ scale.le
    exact_mod_cast fills
  · rw [mul_div_cancel_right₀ _ scale.ne', nearest_natCast]
    exact made.bits

/-! ## Integers -/

theorem ofInt_eq (n : ℤ) {magnitude : ℕ} (rounds : Rounds n.natAbs magnitude)
    (finite : magnitude < infiniteMagnitude) :
    ofInt n = ofMagnitude (decide (n < 0)) magnitude := by
  rw [ofInt, ofRatio?_eq _ (by decide) (by simpa using rounds), ofMagnitude?, if_pos finite]
  rfl

/-- The double of an integer is equal to every double that is this integer. -/
theorem ofInt_beq {x : Float} {n : ℤ} (found : integer? x = some n) : (ofInt n == x) = true := by
  obtain ⟨negative, mantissa, exponent, split, whole, signed⟩ := integer?_spec found
  by_cases zero : n = 0
  · subst zero
    have empty : mantissa = 0 := by
      have vanishes : mantissa * 2 ^ exponent.toNat = 0 := by simpa using whole
      exact (Nat.mul_eq_zero.mp vanishes).resolve_right (Nat.two_pow_pos _).ne'
    rw [beq_iff, split]
    exact .inl ⟨rfl, empty⟩
  · have value : (n.natAbs : ℚ) = mantissa * 2 ^ exponent := by
      have scaled : (mantissa : ℚ) * 2 ^ exponent.toNat = n.natAbs * 2 ^ (-exponent).toNat := by
        exact_mod_cast whole
      have power : exponent = (exponent.toNat : ℤ) - ((-exponent).toNat : ℤ) := by omega
      rw [power, zpow_sub₀ (by norm_num), zpow_natCast, zpow_natCast, ← mul_div_assoc, scaled,
        mul_div_cancel_right₀ _ (by positivity)]
    have made := finiteParts split
    have nearest := ofInt_eq n (value ▸ rounds_self split) made.finite
    rw [nearest, ← signed zero, made.ofMagnitude_eq]
    exact beq_self (by simp [isFinite, split])

/-- An integer of 64 bits is near a finite double. -/
theorem ofInt_finite {n : ℤ} (least : -(wordBound : ℤ) ≤ 2 * n) (most : n < wordBound) :
    isFinite (ofInt n) = true := by
  have bound : (n.natAbs : ℚ) < 2 ^ (1023 : ℤ) := by
    have below : n.natAbs < 2 ^ 64 := by
      have word : wordBound = 2 ^ 64 := by decide
      omega
    calc (n.natAbs : ℚ) < 2 ^ 64 := by exact_mod_cast below
      _ = 2 ^ (64 : ℤ) := by norm_num
      _ ≤ 2 ^ (1023 : ℤ) := two_zpow_le.mpr (by decide)
  obtain ⟨magnitude, rounds⟩ := exists_rounds (Nat.cast_nonneg n.natAbs)
  have finite := rounds.finite bound
  have field : ¬ magnitude / fieldUnit = 2047 := by
    unfold infiniteMagnitude fieldUnit at *
    omega
  rw [isFinite, ofInt_eq n rounds finite, parts_ofMagnitude _ finite, partsOfMagnitude, if_neg field]
  split_ifs <;> rfl

end StackScript.Number
