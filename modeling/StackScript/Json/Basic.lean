/-
# StackScript.Json.Basic — JSON trees

Programs and their literals are JSON trees. Objects keep the order of their
source, integers stay apart from floats, and a float is finite.

`Json.same` is equality of trees: an integer differs from every float, the two
zeros are equal, and the order of an object's entries does not matter. Entries
are matched key by key, so it needs no assumption that keys are distinct.

A text that is no JSON has a `Problem`: it names the first character that no JSON
text could go on with, by its line and by the number of bytes of that line up to
and including it.
-/
import StackScript.Number.Layout

namespace StackScript

set_option autoImplicit false

inductive Json where
  | null
  | bool (value : Bool)
  | integer (value : Int)
  | float (value : Float) (finite : Number.isFinite value = true)
  | string (value : String)
  | array (items : List Json)
  | object (entries : List (String × Json))

namespace Json

/-- The first entry under a key, and the entries without it. -/
def takeEntry? (key : String) : List (String × Json) → Option (Json × List (String × Json))
  | [] => none
  | (k, value) :: rest =>
    if k = key then some (value, rest)
    else
      match takeEntry? key rest with
      | some (found, others) => some (found, (k, value) :: others)
      | none => none

mutual

/-- Equality of trees, up to the order of object entries. -/
def same : Json → Json → Bool
  | .null, .null => true
  | .bool a, .bool b => a == b
  | .integer a, .integer b => a == b
  | .float a _, .float b _ => a == b
  | .string a, .string b => a == b
  | .array as, .array bs => sameItems as bs
  | .object as, .object bs => sameEntries as bs
  | _, _ => false

def sameItems : List Json → List Json → Bool
  | [], [] => true
  | a :: as, b :: bs => a.same b && sameItems as bs
  | _, _ => false

def sameEntries : List (String × Json) → List (String × Json) → Bool
  | [], bs => bs.isEmpty
  | (key, a) :: as, bs =>
    match takeEntry? key bs with
    | some (b, rest) => a.same b && sameEntries as rest
    | none => false

end

instance : BEq Json := ⟨same⟩

/-- The tree of a number: an integer where the number prints as one, and `null`
for what JSON cannot write. -/
def ofNumber (x : Float) : Json :=
  match Number.printedInteger? x with
  | some n => .integer n
  | none => if finite : Number.isFinite x = true then .float x finite else .null

/-! ## Problems of a text -/

inductive Reason where
  | unexpectedCharacter
  | unexpectedEnd
  /-- A raw character below U+0020 inside a string. -/
  | controlCharacter
deriving DecidableEq

/-- A place in a text, counted in lines and in bytes of the line. -/
structure Place where
  line : Nat := 1
  column : Nat := 0
deriving DecidableEq

/-- The place behind one more character. -/
def Place.advance (place : Place) (c : Char) : Place :=
  if c = '\n' then { line := place.line + 1, column := 0 }
  else { place with column := place.column + c.utf8Size }

structure Problem where
  reason : Reason
  place : Place
deriving DecidableEq

def Reason.text : Reason → String
  | .unexpectedCharacter => "unexpected character"
  | .unexpectedEnd => "unexpected end of the text"
  | .controlCharacter => "control character (\\u0000-\\u001F) found while parsing a string"

def Problem.text (problem : Problem) : String :=
  problem.reason.text ++ " at line " ++ toString problem.place.line ++ " column " ++
    toString problem.place.column

end Json

end StackScript
