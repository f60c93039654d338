/-
# StackScript.Shape — the shape of a literal

What a literal means is decided by its structure alone. An array that holds one
string is text and any other array is a program; an object is a literal only if
it has exactly one entry, under one of the two tags.
-/
import StackScript.Value.Literal

namespace StackScript

set_option autoImplicit false

inductive Shape where
  /-- The null of the language, which only a value has. -/
  | nullValue
  /-- The null of a literal. -/
  | absent
  | text
  | number
  | boolean
  | function
  | array
  | dict
  /-- A string: a token to be read. -/
  | token
  | unknown
deriving DecidableEq

namespace Shape

def label : Shape → String
  | .nullValue => "null-value"
  | .absent => "js-null"
  | .text => "string"
  | .number => "number"
  | .boolean => "boolean"
  | .function => "function"
  | .array => "array"
  | .dict => "dict"
  | .token => "instr"
  | .unknown => "unknown"

/-- Pushed as it is written. -/
def isScalar : Shape → Bool
  | .boolean | .number | .nullValue | .function => true
  | _ => false

/-- Constructed when it is reached. -/
def isStructured : Shape → Bool
  | .text | .array | .dict | .absent => true
  | _ => false

end Shape

def Json.shape : Json → Shape
  | .null => .absent
  | .bool _ => .boolean
  | .integer _ | .float .. => .number
  | .string _ => .token
  | .array [.string _] => .text
  | .array _ => .function
  | .object [(key, _)] =>
    if key = arrayTag then .array else if key = dictTag then .dict else .unknown
  | .object _ => .unknown

def Value.shape : Value → Shape
  | .null => .nullValue
  | .boolean _ => .boolean
  | .number _ => .number
  | .text _ => .text
  | .array _ => .array
  | .dict _ => .dict
  | .function _ => .function

/-- The kind of an instruction, as listings show it. -/
def Instruction.label : Instruction → String
  | .value held => held.shape.label
  | .literal tree => tree.shape.label
  | .token _ read => read.label
  | .invalid .. => "invalid"

end StackScript
