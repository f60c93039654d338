/-
# StackScript.Value.Literal — the literals and the texts of values

`Value.toLiteral` is the literal that rebuilds a value when a program holds it:
text is a one-string array, containers carry their tag, a program is its own
source. `Value.toJson` is the plain tree a value is printed as, where text is a
string and containers carry no tag. Both number trees follow `Json.ofNumber`.

`Value.output` is what a program prints: text as it is, numbers as the language
writes them, everything composed as JSON. `Value.display` is the form in messages
and traces, which marks text with quotes and shows a function by its size or
name.
-/
import StackScript.Json.Writer
import StackScript.Value.Basic

namespace StackScript

set_option autoImplicit false

/-- The key that marks an array literal. -/
def arrayTag : String := "@"

/-- The key that marks a dict literal. -/
def dictTag : String := "!"

mutual

def Value.toLiteral : Value → Json
  | .null => .null
  | .boolean value => .bool value
  | .number value => .ofNumber value
  | .text value => .array [.string value]
  | .array items => .object [(arrayTag, .array (Value.literalsOnto [] items))]
  | .dict entries => .object [(dictTag, .object (Value.literalEntriesOnto [] entries))]
  | .function body => body.toLiteral

/-- The literals of values, after those found so far, which come newest first. -/
def Value.literalsOnto (found : List Json) : List Value → List Json
  | [] => found.reverse
  | item :: items => Value.literalsOnto (item.toLiteral :: found) items

def Value.literalEntriesOnto (found : List (String × Json)) :
    List (String × Value) → List (String × Json)
  | [] => found.reverse
  | (key, value) :: entries => Value.literalEntriesOnto ((key, value.toLiteral) :: found) entries

def Body.toLiteral : Body → Json
  | .native name => .string name
  | .program instructions => .array (Instruction.literalsOnto [] instructions)

def Instruction.toLiteral : Instruction → Json
  | .value held => held.toLiteral
  | .literal tree => tree
  | .token text _ => .string text
  | .invalid tree _ => tree

def Instruction.literalsOnto (found : List Json) : List Instruction → List Json
  | [] => found.reverse
  | instruction :: rest => Instruction.literalsOnto (instruction.toLiteral :: found) rest

end

/-- The source of a program, as a tree. -/
def Program.toLiteral (program : Program) : Json :=
  (Body.program program).toLiteral

/-- The source of a program. -/
def Program.text (program : Program) : String :=
  (Program.toLiteral program).text

/-- An instruction as written. -/
def Instruction.text (instruction : Instruction) : String :=
  instruction.toLiteral.render

mutual

/-- The tree a value is printed as. -/
def Value.toJson : Value → Json
  | .null => .null
  | .boolean value => .bool value
  | .number value => .ofNumber value
  | .text value => .string value
  | .array items => .array (Value.treesOnto [] items)
  | .dict entries => .object (Value.treeEntriesOnto [] entries)
  | .function (.program instructions) => Program.toLiteral instructions
  | .function (.native name) => .string ("<native " ++ name ++ ">")

def Value.treesOnto (found : List Json) : List Value → List Json
  | [] => found.reverse
  | item :: items => Value.treesOnto (item.toJson :: found) items

def Value.treeEntriesOnto (found : List (String × Json)) :
    List (String × Value) → List (String × Json)
  | [] => found.reverse
  | (key, value) :: entries => Value.treeEntriesOnto ((key, value.toJson) :: found) entries

end

/-! ## Values in print -/

/-- What a program prints for a value. -/
def Value.output : Value → String
  | .text value => value
  | .number value => Number.text value
  | .null => "null"
  | .boolean value => if value then "true" else "false"
  | value => value.toJson.text

mutual

/-- A value in messages and traces. -/
def Value.display : Value → String
  | .null => "null"
  | .boolean value => if value then "true" else "false"
  | .number value => Number.text value
  | .text value => "\"" ++ value ++ "\""
  | .array items => "[" ++ String.intercalate ", " (Value.displaysOnto [] items) ++ "]"
  | .dict entries =>
    "\x7b" ++ String.intercalate ", " (Value.displayEntriesOnto [] entries) ++ "\x7d"
  | .function (.program instructions) => "<program/" ++ toString instructions.length ++ ">"
  | .function (.native name) => "<native " ++ name ++ ">"

/-- The displays of values, after those found so far, which come newest first. -/
def Value.displaysOnto (found : List String) : List Value → List String
  | [] => found.reverse
  | item :: items => Value.displaysOnto (item.display :: found) items

def Value.displayEntriesOnto (found : List String) : List (String × Value) → List String
  | [] => found.reverse
  | (key, value) :: entries =>
    Value.displayEntriesOnto ((key ++ ": " ++ value.display) :: found) entries

end

end StackScript
