/-
# StackScript.Number.Layout — how the digits of a double are laid out

The same shortest digits are laid out in three ways: `Layout.plain` never writes
an exponent, `Layout.json` is the form of a JSON fraction, and `Layout.exponential`
always writes an exponent. `text` is the form in which the language prints its
numbers: an integer below `10 ^ 15` as such, anything else plainly.
-/
import StackScript.Number.Shortest

namespace StackScript.Number

set_option autoImplicit false

/-- The choices of a layout. -/
structure Layout where
  /-- Which of two equally near digit strings is written. -/
  tie : Tie
  /-- Whether a number whose first digit stands at this power of ten is written
  without an exponent. -/
  positional : Int → Bool
  /-- What follows a whole number that is written without an exponent. -/
  wholeMark : List Char
  /-- The sign of an exponent that is not negative. -/
  plus : List Char

namespace Layout

/-- No exponent, no point after a whole number; a tie goes up. -/
def plain : Layout where
  tie := .up
  positional _ := true
  wholeMark := []
  plus := []

/-- From `0.00001` to below `10 ^ 16` without an exponent, and a whole number
keeps one decimal; a tie goes to the even digit. -/
def json : Layout where
  tie := .even
  positional leading := decide (-5 ≤ leading ∧ leading < 16)
  wholeMark := ['.', '0']
  plus := ['+']

/-- Always an exponent, with no sign unless it is negative; a tie goes up. -/
def exponential : Layout where
  tie := .up
  positional _ := false
  wholeMark := []
  plus := []

/-- Digits around the point. -/
def positionalText (wholeMark : List Char) (d : Digits) : List Char :=
  if d.leading < 0 then
    '0' :: '.' :: (List.replicate (-d.leading - 1).toNat '0' ++ d.digits)
  else
    let width := d.leading.toNat + 1
    if d.digits.length ≤ width then
      d.digits ++ List.replicate (width - d.digits.length) '0' ++ wholeMark
    else d.digits.take width ++ '.' :: d.digits.drop width

/-- One digit, the others behind a point, and the exponent. -/
def exponentialText (plus : List Char) (d : Digits) : List Char :=
  let fraction :=
    match d.digits.drop 1 with
    | [] => []
    | rest => '.' :: rest
  let sign := if d.leading < 0 then ['-'] else plus
  d.digits.take 1 ++ fraction ++ 'e' :: (sign ++ Nat.toDigits 10 d.leading.natAbs)

def digitsText (l : Layout) (d : Digits) : List Char :=
  if l.positional d.leading then positionalText l.wholeMark d else exponentialText l.plus d

/-- The text of `± mantissa · 2 ^ exponent`, which is the magnitude of `x`. -/
def magnitudeText (l : Layout) (x : Float) (mantissa : Nat) (exponent : Int) : List Char :=
  if mantissa = 0 then '0' :: l.wholeMark
  else l.digitsText (shortest l.tie x mantissa exponent)

/-- A double in this layout. -/
def text (l : Layout) (x : Float) : String :=
  match parts x with
  | .nan => "NaN"
  | .infinite negative => if negative then "-inf" else "inf"
  | .finite negative mantissa exponent =>
    let magnitude := ofMagnitude false (x.toBits.toNat % signBit)
    let body := l.magnitudeText magnitude mantissa exponent
    String.ofList (if negative then '-' :: body else body)

end Layout

/-! ## Numbers of the language -/

/-- What the integers that are printed as such stay below, `10 ^ 15`. -/
def printedBound : Nat := 1000000000000000

/-- The integer that stands for a double in print: the one it is equal to, if
that is below `10 ^ 15` in magnitude. -/
def printedInteger? (x : Float) : Option Int :=
  match integer? x with
  | some n => if n.natAbs < printedBound then some n else none
  | none => none

/-- The text the language prints for a number. -/
def text (x : Float) : String :=
  match printedInteger? x with
  | some n => toString n
  | none => Layout.plain.text x

end StackScript.Number
