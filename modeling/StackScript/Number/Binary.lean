/-
# StackScript.Number.Binary — doubles as exact fractions

Numbers of the language are IEEE doubles, the core type `Float`. This module
ties them to exact arithmetic on natural numbers.

* `parts` reads a double as `± mantissa · 2 ^ exponent`;
* `ofRatio?` is the way back: the double nearest to a fraction, a tie going to
  the even mantissa, and nothing when the fraction lies beyond the largest
  finite double;
* `integer?` is the integer a double is equal to, if there is one, and `ofInt`
  the double nearest to an integer.

The bits of a positive double grow with its value. A mantissa `m` over the unit
`2 ^ e` has the bits `(e + 1074) · 2 ^ 52 + m`, for normal and subnormal doubles
alike, and a mantissa that rounds up to `2 ^ 53` carries into the next exponent
in the same sum.
-/

namespace StackScript.Number

set_option autoImplicit false

/-- What a double stands for; a finite one is `± mantissa · 2 ^ exponent`. -/
inductive Parts where
  | nan
  | infinite (negative : Bool)
  | finite (negative : Bool) (mantissa : Nat) (exponent : Int)
deriving DecidableEq

/-- The sign bit, `2 ^ 63`. The bits below it are the magnitude. -/
def signBit : Nat := 0x8000000000000000

/-- The lowest bit of the exponent field, `2 ^ 52`. The bits below it are the fraction. -/
def fieldUnit : Nat := 0x10000000000000

/-- The magnitude bits of the infinities, an exponent field of ones. -/
def infiniteMagnitude : Nat := 2047 * fieldUnit

/-- The parts of the double with the given magnitude bits. -/
def partsOfMagnitude (negative : Bool) (magnitude : Nat) : Parts :=
  let field : Nat := magnitude / fieldUnit
  let fraction : Nat := magnitude % fieldUnit
  if field = 2047 then
    if fraction = 0 then .infinite negative else .nan
  else if field = 0 then .finite negative fraction (-1074)
  else .finite negative (fieldUnit + fraction) ((field : Int) - 1075)

def parts (x : Float) : Parts :=
  let bits := x.toBits.toNat
  partsOfMagnitude (decide (signBit ≤ bits)) (bits % signBit)

/-- The double with the given sign and magnitude bits. -/
def ofMagnitude (negative : Bool) (magnitude : Nat) : Float :=
  Float.ofBits (UInt64.ofNat (if negative then signBit + magnitude else magnitude))

def zero (negative : Bool) : Float :=
  ofMagnitude negative 0

def infinity (negative : Bool) : Float :=
  ofMagnitude negative infiniteMagnitude

def nan : Float :=
  ofMagnitude false (infiniteMagnitude + fieldUnit / 2)

/-! ## Rounding a fraction -/

/-- The integer nearest to `num / den`, a tie going to the even one. -/
def roundDiv (num den : Nat) : Nat :=
  let quotient := num / den
  let remainder := num % den
  if 2 * remainder < den then quotient
  else if den < 2 * remainder then quotient + 1
  else quotient + quotient % 2

/-- The fraction `num / den` in units of `base ^ exponent`, as a fraction again. -/
def inUnits (base num den : Nat) (exponent : Int) : Nat × Nat :=
  (num * Nat.pow base (-exponent).toNat, den * Nat.pow base exponent.toNat)

/-- The exponent of the last mantissa bit of a double near `num / den`: the
quotient in this unit is below `2 ^ 53`, and at least `2 ^ 52` unless the
exponent is already the smallest one. -/
def unitExponent (num den : Nat) : Int :=
  let guess : Int := max ((num.log2 : Int) - den.log2 - 53) (-1074)
  let scaled := inUnits 2 num den guess
  if scaled.1 / scaled.2 < 2 * fieldUnit then guess else guess + 1

/-- The magnitude bits of the double nearest to `num / den`. -/
def magnitudeOfRatio (num den : Nat) : Nat :=
  let unit := unitExponent num den
  let scaled := inUnits 2 num den unit
  (unit + 1074).toNat * fieldUnit + roundDiv scaled.1 scaled.2

/-- The double nearest to `± num / den`; none when it is too large for one. -/
def ofRatio? (negative : Bool) (num den : Nat) : Option Float :=
  if num = 0 then some (zero negative)
  else
    let magnitude := magnitudeOfRatio num den
    if magnitude < infiniteMagnitude then some (ofMagnitude negative magnitude) else none

/-! ## Integers -/

/-- The integer a double is equal to. Both zeros are the integer zero. -/
def integer? (x : Float) : Option Int :=
  match parts x with
  | .finite negative mantissa exponent =>
    let scaled := inUnits 2 mantissa 1 (-exponent)
    if scaled.1 % scaled.2 = 0 then
      let whole : Int := (scaled.1 / scaled.2 : Nat)
      some (if negative then -whole else whole)
    else none
  | _ => none

/-- The double nearest to an integer, an infinity where none is near. -/
def ofInt (n : Int) : Float :=
  (ofRatio? (decide (n < 0)) n.natAbs 1).getD (infinity (decide (n < 0)))

def isFinite (x : Float) : Bool :=
  match parts x with
  | .finite .. => true
  | _ => false

def isNan (x : Float) : Bool :=
  match parts x with
  | .nan => true
  | _ => false

end StackScript.Number
