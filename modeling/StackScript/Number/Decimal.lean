/-
# StackScript.Number.Decimal — decimals and the numerals that write them

A `Decimal` is `± digits · 10 ^ exponent`, and `Decimal.toFloat?` the double
nearest to it. A `Numeral` is a number as JSON writes it: a whole part without a
leading zero, then perhaps a fraction and an exponent. `Numeral.ofChars?` reads
exactly that grammar. `Numeral.toFloat?` gives the nearest double however long the
numeral is, where a decoder that makes its best effort may give a neighbour of it.

`readWord?` reads whole numbers outside of JSON.
-/
import StackScript.Number.Binary

namespace StackScript.Number

set_option autoImplicit false

/-- The number `± digits · 10 ^ exponent`. -/
structure Decimal where
  negative : Bool
  digits : Nat
  exponent : Int
deriving DecidableEq

/-- The double nearest to a decimal; none when it is too large for one. Powers of
ten far outside the range of doubles are settled without computing them. -/
def Decimal.toFloat? (d : Decimal) : Option Float :=
  if d.digits = 0 then some (zero d.negative)
  else if 400 < d.exponent then none
  else if d.exponent + (Nat.toDigits 10 d.digits).length < -400 then some (zero d.negative)
  else
    let scaled := inUnits 10 d.digits 1 (-d.exponent)
    ofRatio? d.negative scaled.1 scaled.2

/-- What the numbers of 64 bits stay below, `2 ^ 64`. -/
def wordBound : Nat := 0x10000000000000000

/-- The characters behind a plus sign, if one stands at the front. -/
def unsigned : List Char → List Char
  | '+' :: rest => rest
  | all => all

/-- The number of 64 bits that a text writes: decimal digits, perhaps behind a plus sign. -/
def readWord? (text : String) : Option Nat :=
  let digits := unsigned text.toList
  let n := Nat.ofDigitChars 10 digits 0
  if !digits.isEmpty && digits.all Char.isDigit && decide (n < wordBound) then some n else none

/-- A number as written. The exponent's flag is its minus sign. -/
structure Numeral where
  negative : Bool
  whole : List Char
  fraction : Option (List Char)
  exponent : Option (Bool × List Char)
deriving DecidableEq

namespace Numeral

/-- A whole part: a single zero, or digits that do not start with one. -/
def isWhole : List Char → Bool
  | [] => false
  | ['0'] => true
  | c :: _ => c != '0'

/-- A fraction, if a point stands here; a point must be followed by a digit. -/
def readFraction : List Char → Option (Option (List Char) × List Char)
  | '.' :: cs =>
    match cs.takeWhile Char.isDigit with
    | [] => none
    | digits => some (some digits, cs.dropWhile Char.isDigit)
  | cs => some (none, cs)

def readSign : List Char → Bool × List Char
  | '-' :: cs => (true, cs)
  | '+' :: cs => (false, cs)
  | cs => (false, cs)

/-- An exponent, if its mark stands here; a mark must lead to a digit. -/
def readExponent : List Char → Option (Option (Bool × List Char) × List Char)
  | [] => some (none, [])
  | c :: cs =>
    if c = 'e' ∨ c = 'E' then
      let signed := readSign cs
      match signed.2.takeWhile Char.isDigit with
      | [] => none
      | digits => some (some (signed.1, digits), signed.2.dropWhile Char.isDigit)
    else some (none, c :: cs)

/-- Reads a whole numeral and nothing after it. -/
def ofChars? (cs : List Char) : Option Numeral :=
  let negative := cs.head? == some '-'
  let unsigned := if negative then cs.tail else cs
  let whole := unsigned.takeWhile Char.isDigit
  if isWhole whole then
    match readFraction (unsigned.dropWhile Char.isDigit) with
    | none => none
    | some (fraction, rest) =>
      match readExponent rest with
      | some (exponent, []) => some { negative, whole, fraction, exponent }
      | _ => none
  else none

/-- Neither a fraction nor an exponent is written. -/
def isInteger (n : Numeral) : Bool :=
  n.fraction.isNone && n.exponent.isNone

def toDecimal (n : Numeral) : Decimal :=
  let fraction := n.fraction.getD []
  let exponent : Int :=
    match n.exponent with
    | none => 0
    | some (negative, digits) => if negative then -(Nat.ofDigitChars 10 digits 0 : Int) else Nat.ofDigitChars 10 digits 0
  { negative := n.negative
    digits := Nat.ofDigitChars 10 (n.whole ++ fraction) 0
    exponent := exponent - fraction.length }

/-- The double nearest to a numeral; none when it is too large for one. -/
def toFloat? (n : Numeral) : Option Float :=
  n.toDecimal.toFloat?

end Numeral

end StackScript.Number
