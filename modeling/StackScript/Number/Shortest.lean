/-
# StackScript.Number.Shortest — the fewest digits that read back

`shortest` writes a positive finite double with as few significant digits as
read back as that very double, and takes the nearer of two candidates. A grid of
`n` digits is tried for `n` from 1 to 17; on each only the two neighbours of the
value can be nearest. Every answer has been read back before it is given, and
the exact expansion stands in where no grid of at most 17 digits has a hit.
-/
import StackScript.Number.Decimal

namespace StackScript.Number

set_option autoImplicit false

/-- Which of two equally near candidates is written. -/
inductive Tie where
  | up
  | even
deriving DecidableEq

/-- Significant digits, without a trailing zero, and the power of ten of the
first of them. -/
structure Digits where
  digits : List Char
  leading : Int
deriving DecidableEq

/-- The digits of `n · 10 ^ place`. -/
def Digits.ofNat (n : Nat) (place : Int) : Digits :=
  let all := Nat.toDigits 10 n
  { digits := (all.reverse.dropWhile (· == '0')).reverse
    leading := place + all.length - 1 }

/-- The power of ten of the first digit of `num / den`. -/
def leadingExponent (num den : Nat) : Int :=
  if den ≤ num then (Nat.toDigits 10 (num / den)).length - 1
  else
    let shift := (Nat.toDigits 10 den).length - (Nat.toDigits 10 num).length
    if den ≤ num * Nat.pow 10 shift then -(shift : Int) else -(shift : Int) - 1

/-- The decimal `n · 10 ^ place` reads as the double `x`. -/
def readsBack (x : Float) (n : Nat) (place : Int) : Bool :=
  match Decimal.toFloat? { negative := false, digits := n, exponent := place } with
  | some y => y.toBits == x.toBits
  | none => false

/-- Of the two neighbours of `num / den` on the grid of `10 ^ place`, the nearer
one that reads back as `x`. -/
def neighbour? (tie : Tie) (x : Float) (num den : Nat) (place : Int) : Option Nat :=
  let scaled := inUnits 10 num den place
  let below := scaled.1 / scaled.2
  let twice := 2 * (scaled.1 % scaled.2)
  let preferBelow :=
    if twice = scaled.2 then decide (tie = .even ∧ below % 2 = 0) else decide (twice < scaled.2)
  let ordered := if preferBelow then [below, below + 1] else [below + 1, below]
  ordered.find? fun n => readsBack x n place

/-- The exact expansion of `mantissa · 2 ^ exponent`. -/
def exactDigits (mantissa : Nat) (exponent : Int) : Digits :=
  .ofNat (mantissa * Nat.pow 2 exponent.toNat * Nat.pow 5 (-exponent).toNat) (min exponent 0)

/-- The fewest digits that read back as `x`, which is `mantissa · 2 ^ exponent`. -/
def shortest (tie : Tie) (x : Float) (mantissa : Nat) (exponent : Int) : Digits :=
  let scaled := inUnits 2 mantissa 1 (-exponent)
  let leading := leadingExponent scaled.1 scaled.2
  let onGrid (n : Nat) : Option Digits :=
    let place := leading - n
    (neighbour? tie x scaled.1 scaled.2 place).map fun found => .ofNat found place
  ((List.range 17).findSome? onGrid).getD (exactDigits mantissa exponent)

end StackScript.Number
