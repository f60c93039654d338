/-
# StackScript.Proofs.Number — doubles are equal as their parts are

`Number.parts` reads a double from its bits, and equality of doubles is decided on
the unpacked double. `unpack_toModel` ties the two together, so that equality of
doubles is a matter of parts (`beq_iff`): the two zeros are equal, a NaN equals
nothing, and otherwise sign, mantissa and exponent are the same.

The way back is `parts_ofMagnitude`: a double made from a sign and a magnitude has
the parts of that magnitude, and a finite double is made from its own
(`FiniteParts.ofMagnitude_eq`).
-/
import Mathlib
import StackScript.Number.Layout

namespace StackScript.Number

set_option autoImplicit false

open Float.Model Float.Model.UnpackedFloat

/-! ## Reading the bits -/

/-- The sign that a negative or a positive double bears. -/
def sign (negative : Bool) : Sign :=
  if negative then .negative else .positive

theorem toNat_unpackMantissa (b : BitVec 64) :
    (@unpackMantissa Format.binary64 b).toNat = b.toNat % signBit % fieldUnit := by
  simp [unpackMantissa, fieldUnit, signBit]

theorem toNat_unpackExponent (b : BitVec 64) :
    (@unpackExponent Format.binary64 b).toNat = b.toNat % signBit / fieldUnit := by
  simp [unpackExponent, fieldUnit, signBit, Nat.shiftRight_eq_div_pow]
  omega

theorem toNat_unpackSign (b : BitVec 64) :
    (@unpackSign Format.binary64 b).toNat = b.toNat / signBit := by
  have bound := b.isLt
  simp [unpackSign, signBit, Nat.shiftRight_eq_div_pow]
  omega

theorem ofBitVec_unpackSign (b : BitVec 64) :
    Sign.ofBitVec (@unpackSign Format.binary64 b) = sign (decide (signBit ≤ b.toNat)) := by
  have bit := toNat_unpackSign b
  have bound := b.isLt
  unfold Sign.ofBitVec sign
  simp only [← BitVec.toNat_inj, bit, BitVec.toNat_ofNat, decide_eq_true_eq]
  by_cases negative : signBit ≤ b.toNat
  · have one : b.toNat / signBit ≠ 0 := by unfold signBit at *; omega
    simp [negative, one]
  · have none : b.toNat / signBit = 0 := by unfold signBit at *; omega
    simp [negative, none]

/-- The double as the arithmetic of doubles sees it. -/
def Parts.unpacked : Parts → UnpackedFloat
  | .nan => .notANumber
  | .infinite negative => .infinity (sign negative)
  | .finite negative mantissa exponent =>
    if positive : 0 < mantissa then .finite (sign negative) mantissa exponent positive
    else .zero (sign negative)

theorem unpack_bits (b : BitVec 64) :
    UnpackedFloat.unpack Format.binary64 b =
      (partsOfMagnitude (decide (signBit ≤ b.toNat)) (b.toNat % signBit)).unpacked := by
  have fraction := toNat_unpackMantissa b
  have field := toNat_unpackExponent b
  have topField : @unpackExponent Format.binary64 b = -1#11 ↔ b.toNat % signBit / fieldUnit = 2047 := by
    rw [← field, ← BitVec.toNat_inj]; rfl
  have noField : @unpackExponent Format.binary64 b = 0#11 ↔ b.toNat % signBit / fieldUnit = 0 := by
    rw [← field, ← BitVec.toNat_inj]; rfl
  have noFraction : @unpackMantissa Format.binary64 b = 0#52 ↔ b.toNat % signBit % fieldUnit = 0 := by
    rw [← fraction, ← BitVec.toNat_inj]; rfl
  have implicit : (1#1 ++ @unpackMantissa Format.binary64 b).toNat =
      fieldUnit + b.toNat % signBit % fieldUnit := by
    rw [BitVec.toNat_append, ← Nat.shiftLeft_add_eq_or_of_lt (BitVec.isLt _), fraction]; rfl
  unfold UnpackedFloat.unpack partsOfMagnitude
  simp only [ofBitVec_unpackSign, topField, noField, noFraction, implicit, fraction, field]
  by_cases top : b.toNat % signBit / fieldUnit = 2047
  · by_cases empty : b.toNat % signBit % fieldUnit = 0
    · simp [top, empty, Parts.unpacked]
    · simp [top, empty, Parts.unpacked]
  · by_cases low : b.toNat % signBit / fieldUnit = 0
    · by_cases empty : b.toNat % signBit % fieldUnit = 0
      · simp [low, empty, Parts.unpacked]
      · have positive : 0 < b.toNat % signBit % fieldUnit := by omega
        rw [if_neg top, if_pos low, dif_neg empty, if_neg top, if_pos low, Parts.unpacked,
          dif_pos positive]
        simp only [low]
        rfl
    · have positive : 0 < fieldUnit + b.toNat % signBit % fieldUnit := by unfold fieldUnit; omega
      rw [if_neg top, if_neg low, if_neg top, if_neg low, Parts.unpacked, dif_pos positive]
      rfl

theorem unpack_toModel (x : Float) : x.toModel.unpack = (parts x).unpacked :=
  unpack_bits x.toBits.toBitVec

/-! ## Equality -/

/-- Doubles are equal as numbers: the two zeros are, and a NaN equals nothing. -/
def Parts.Equal : Parts → Parts → Prop
  | .infinite negative, .infinite negative' => negative = negative'
  | .finite negative mantissa exponent, .finite negative' mantissa' exponent' =>
    (mantissa = 0 ∧ mantissa' = 0) ∨
      (negative = negative' ∧ mantissa = mantissa' ∧ exponent = exponent')
  | _, _ => False

theorem beq_iff {x y : Float} : (x == y) = true ↔ (parts x).Equal (parts y) := by
  change (x.toModel.unpack.compare y.toModel.unpack == some .eq) = true ↔ _
  rw [unpack_toModel, unpack_toModel]
  cases parts x with
  | nan => simp [Parts.unpacked, Parts.Equal, UnpackedFloat.compare]
  | infinite s =>
    cases parts y with
    | nan => cases s <;> simp [Parts.unpacked, Parts.Equal, UnpackedFloat.compare, sign]
    | infinite t =>
      cases s <;> cases t <;>
        simp [Parts.unpacked, Parts.Equal, UnpackedFloat.compare, sign, compare]
    | finite t n f =>
      by_cases nonzero : 0 < n <;> cases s <;>
        simp [Parts.unpacked, Parts.Equal, UnpackedFloat.compare, sign, nonzero]
  | finite s m e =>
    cases parts y with
    | nan =>
      by_cases nonzero : 0 < m <;> simp [Parts.unpacked, Parts.Equal, UnpackedFloat.compare, nonzero]
    | infinite t =>
      by_cases nonzero : 0 < m <;> cases t <;>
        simp [Parts.unpacked, Parts.Equal, UnpackedFloat.compare, sign, nonzero]
    | finite t n f =>
      rcases Nat.eq_zero_or_pos m with rfl | left <;> rcases Nat.eq_zero_or_pos n with rfl | right
      · simp [Parts.unpacked, Parts.Equal, UnpackedFloat.compare]
      · have nonzero : n ≠ 0 := by omega
        cases t <;>
          simp [Parts.unpacked, Parts.Equal, UnpackedFloat.compare, sign, right, nonzero, nonzero.symm]
      · have nonzero : m ≠ 0 := by omega
        cases s <;> simp [Parts.unpacked, Parts.Equal, UnpackedFloat.compare, sign, left, nonzero]
      · have nonzero : m ≠ 0 := by omega
        cases s <;> cases t <;>
          simp [Parts.unpacked, Parts.Equal, UnpackedFloat.compare, sign, left, right,
            Ordering.then_eq_eq, nonzero, and_comm]

/-- A finite double equals itself. -/
theorem beq_self {x : Float} (finite : isFinite x = true) : (x == x) = true := by
  rw [beq_iff]
  unfold isFinite at finite
  split at finite
  · rename_i split
    rw [split]
    exact .inr ⟨rfl, rfl, rfl⟩
  · cases finite

/-! ## Writing the bits -/

theorem toNat_packComponents (negative : Bool) (field : BitVec 11) (fraction : BitVec 52) :
    (packComponents Format.binary64 (sign negative) field fraction).toNat =
      (if negative then signBit else 0) + field.toNat * fieldUnit + fraction.toNat := by
  change ((sign negative).toBitVec ++ field ++ fraction).toNat = _
  rw [BitVec.toNat_append, ← Nat.shiftLeft_add_eq_or_of_lt fraction.isLt, BitVec.toNat_append,
    ← Nat.shiftLeft_add_eq_or_of_lt field.isLt]
  cases negative <;>
    simp [sign, Sign.toBitVec, Nat.shiftLeft_eq, signBit, fieldUnit, Nat.add_mul]

theorem toNat_pack (negative : Bool) {magnitude : Nat} (finite : magnitude < infiniteMagnitude) :
    (UnpackedFloat.pack Format.binary64 (partsOfMagnitude negative magnitude).unpacked).toNat =
      (if negative then signBit else 0) + magnitude := by
  have top : ¬ magnitude / fieldUnit = 2047 := by unfold infiniteMagnitude fieldUnit at *; omega
  have split := Nat.div_add_mod' magnitude fieldUnit
  have small := Nat.mod_lt magnitude (show 0 < fieldUnit by decide)
  rw [partsOfMagnitude, if_neg top]
  generalize magnitude / fieldUnit = field at *
  generalize magnitude % fieldUnit = fraction at *
  by_cases low : field = 0
  · subst low
    rw [if_pos rfl]
    by_cases positive : 0 < fraction
    · have fits : ¬ 2 ^ 11 ≤ ((-1074 : Int) + Format.binary64.exponentBias + (52 : Nat)).toNat + 1 := by
        decide
      have subnormal : ¬ fraction.log2 + 1 = Format.binary64.mantissaBits := by
        have bound : fraction.log2 < 52 := (Nat.log2_lt (by omega)).mpr small
        change ¬ fraction.log2 + 1 = 53
        omega
      rw [Parts.unpacked, dif_pos positive, UnpackedFloat.pack]
      simp only [fits, subnormal, if_false]
      rw [toNat_packComponents, BitVec.toNat_ofNat, BitVec.toNat_ofNat,
        Nat.mod_eq_of_lt (show fraction < 2 ^ 52 from small)]
      simp
      omega
    · rw [Parts.unpacked, dif_neg positive, UnpackedFloat.pack, packedZero, toNat_packComponents]
      simp
      omega
  · rw [if_neg low]
    have positive : 0 < fieldUnit + fraction := by omega
    have bound : field < 2047 := by unfold infiniteMagnitude fieldUnit at *; omega
    have biased : (((field : Int) - 1075) + Format.binary64.exponentBias + (52 : Nat)).toNat = field := by
      change (((field : Int) - 1075) + (1023 : Nat) + (52 : Nat)).toNat = field
      omega
    have normal : (fieldUnit + fraction).log2 + 1 = Format.binary64.mantissaBits := by
      have least : 52 ≤ (fieldUnit + fraction).log2 := (Nat.le_log2 (by omega)).mpr (by
        unfold fieldUnit; omega)
      have most : (fieldUnit + fraction).log2 < 53 := (Nat.log2_lt (by omega)).mpr (by
        unfold fieldUnit at *; omega)
      change (fieldUnit + fraction).log2 + 1 = 53
      omega
    have fits : ¬ 2 ^ 11 ≤ field + 1 := by omega
    rw [Parts.unpacked, dif_pos positive, UnpackedFloat.pack]
    simp only [biased, fits, normal, if_false, if_true]
    rw [toNat_packComponents, BitVec.toNat_ofNat, BitVec.toNat_ofNat]
    have kept : field % 2 ^ 11 = field := by omega
    have implicit : (fieldUnit + fraction) % 2 ^ 52 = fraction := by unfold fieldUnit at *; omega
    rw [kept, implicit]
    omega

/-- Sign and magnitude can be told from the bits. -/
theorem split_bits (negative : Bool) {magnitude : Nat} (finite : magnitude < infiniteMagnitude) :
    decide (signBit ≤ if negative then signBit + magnitude else magnitude) = negative ∧
      (if negative then signBit + magnitude else magnitude) % signBit = magnitude := by
  unfold infiniteMagnitude fieldUnit at finite
  cases negative <;> simp [signBit] <;> omega

theorem toBits_ofMagnitude (negative : Bool) {magnitude : Nat} (finite : magnitude < infiniteMagnitude) :
    (ofMagnitude negative magnitude).toBits.toNat =
      if negative then signBit + magnitude else magnitude := by
  obtain ⟨signed, rest⟩ := split_bits negative finite
  have bits : (UInt64.ofNat (if negative then signBit + magnitude else magnitude)).toBitVec.toNat =
      if negative then signBit + magnitude else magnitude := by
    refine Nat.mod_eq_of_lt ?_
    unfold infiniteMagnitude fieldUnit at finite
    cases negative <;> simp [signBit] <;> omega
  change (UnpackedFloat.pack Format.binary64 (UnpackedFloat.unpack Format.binary64 _)).toNat = _
  rw [unpack_bits, bits, signed, rest, toNat_pack negative finite]
  cases negative <;> simp

theorem parts_ofMagnitude (negative : Bool) {magnitude : Nat} (finite : magnitude < infiniteMagnitude) :
    parts (ofMagnitude negative magnitude) = partsOfMagnitude negative magnitude := by
  obtain ⟨signed, rest⟩ := split_bits negative finite
  simp only [parts, toBits_ofMagnitude negative finite, signed, rest]

/-! ## Finite doubles -/

/-- How the parts of a finite double lie in its bits. -/
structure FiniteParts (x : Float) (negative : Bool) (mantissa : Nat) (exponent : Int) : Prop where
  signed : negative = decide (signBit ≤ x.toBits.toNat)
  finite : x.toBits.toNat % signBit < infiniteMagnitude
  bits : x.toBits.toNat % signBit = (exponent + 1074).toNat * fieldUnit + mantissa
  least : -1074 ≤ exponent
  fits : mantissa < 2 * fieldUnit
  fills : exponent = -1074 ∨ fieldUnit ≤ mantissa

theorem finiteParts {x : Float} {negative : Bool} {mantissa : Nat} {exponent : Int}
    (found : parts x = .finite negative mantissa exponent) :
    FiniteParts x negative mantissa exponent := by
  have bound : x.toBits.toNat % signBit < signBit := Nat.mod_lt _ (by decide)
  have split := Nat.div_add_mod' (x.toBits.toNat % signBit) fieldUnit
  have small := Nat.mod_lt (x.toBits.toNat % signBit) (show 0 < fieldUnit by decide)
  simp only [parts, partsOfMagnitude] at found
  split_ifs at found with top empty low
  all_goals
    have finite : x.toBits.toNat % signBit < infiniteMagnitude := by
      unfold infiniteMagnitude signBit fieldUnit at *
      omega
    generalize x.toBits.toNat % signBit / fieldUnit = field at *
    cases found
  · rw [low] at split
    exact ⟨rfl, finite, by simpa using split.symm, le_rfl, by omega, .inl rfl⟩
  · obtain ⟨lower, rfl⟩ := Nat.exists_eq_succ_of_ne_zero low
    have unit : ((lower.succ : Int) - 1075 + 1074).toNat = lower := by omega
    refine ⟨rfl, finite, ?_, by omega, by omega, .inr (by omega)⟩
    rw [unit, ← add_assoc, ← Nat.succ_mul, split]

theorem toBits_injective {x y : Float} (same : x.toBits = y.toBits) : x = y := by
  obtain ⟨⟨bits, _⟩⟩ := x
  obtain ⟨⟨bits', _⟩⟩ := y
  cases same
  rfl

/-- A finite double is made from its sign and magnitude. -/
theorem FiniteParts.ofMagnitude_eq {x : Float} {negative : Bool} {mantissa : Nat} {exponent : Int}
    (made : FiniteParts x negative mantissa exponent) :
    ofMagnitude negative (x.toBits.toNat % signBit) = x := by
  have bound := x.toBits.toNat_lt
  refine toBits_injective (UInt64.toNat_inj.mp ?_)
  rw [toBits_ofMagnitude _ made.finite, made.signed]
  unfold signBit
  simp only [decide_eq_true_eq]
  split_ifs <;> omega

/-! ## Integers -/

/-- A double that is an integer, as an equation between whole numbers. -/
theorem integer?_spec {x : Float} {n : Int} (found : integer? x = some n) :
    ∃ negative mantissa exponent, parts x = .finite negative mantissa exponent ∧
      mantissa * 2 ^ exponent.toNat = n.natAbs * 2 ^ (-exponent).toNat ∧
      (n ≠ 0 → negative = decide (n < 0)) := by
  unfold integer? at found
  split at found
  · rename_i negative mantissa exponent split
    refine ⟨negative, mantissa, exponent, split, ?_⟩
    simp only [inUnits, Int.neg_neg, Nat.one_mul, Nat.pow_eq] at found
    split at found
    · rename_i divides
      have whole := Nat.div_mul_cancel (Nat.dvd_of_mod_eq_zero divides)
      generalize mantissa * 2 ^ exponent.toNat / 2 ^ (-exponent).toNat = quotient at found whole
      rw [← whole]
      cases found
      cases negative
      · refine ⟨by simp, fun _ => ?_⟩
        simp
      · refine ⟨by simp, fun nonzero => ?_⟩
        have positive : 0 < quotient := by
          simp only [if_true] at nonzero
          omega
        simpa using positive
    · cases found
  · cases found

theorem printedInteger?_spec {x : Float} {n : Int} (printed : printedInteger? x = some n) :
    integer? x = some n ∧ n.natAbs < printedBound := by
  unfold printedInteger? at printed
  split at printed
  · rename_i m found
    split at printed
    · rename_i small
      cases printed
      exact ⟨found, small⟩
    · cases printed
  · cases printed

end StackScript.Number
