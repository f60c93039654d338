/-
# StackScript.Program — reading programs

`Instruction.ofLiteral` decides, once and before anything runs, what each literal
of a source stands for: a token, a value that is pushed as it is, a literal that
is constructed when it is reached, or an instruction that fails when it is
reached. `Program.parse` reads a source text; only a text that is not JSON, or
not an array, is refused.
-/
import StackScript.Json.Reader
import StackScript.Shape
import StackScript.Token.Reader

namespace StackScript

set_option autoImplicit false

def Instruction.ofToken (text : String) : Instruction :=
  match Token.read text with
  | .ok read => .token text read
  | .error fault => .invalid (.string text) fault

/-- A literal of no known shape. -/
def Instruction.unknown (tree : Json) : Instruction :=
  .invalid tree (.unknownType tree.render)

/-- What a literal stands for, by its shape. `scalar` is its value if it is pushed as it
is written. -/
def Instruction.ofShape (tree : Json) (scalar : Option Value) : Instruction :=
  match tree.shape, tree with
  | .token, .string text => .ofToken text
  | shape, tree =>
    if shape.isStructured then .literal tree
    else if shape.isScalar then
      match scalar with
      | some held => .value held
      | none => .unknown tree
    else .unknown tree

mutual

/-- The value of a literal that is pushed as it is written. -/
def Value.ofScalar? : Json → Option Value
  | .bool b => some (.boolean b)
  | .integer n => some (.number (Number.ofInt n))
  | .float x _ => some (.number x)
  | .array items => some (.function (.program (Instruction.ofLiteralsOnto [] items)))
  | _ => none

/-- The instructions of literals, after those read so far, which come newest first. -/
def Instruction.ofLiteralsOnto (read : List Instruction) : List Json → List Instruction
  | [] => read.reverse
  | tree :: rest =>
    Instruction.ofLiteralsOnto (Instruction.ofShape tree (Value.ofScalar? tree) :: read) rest

end

def Instruction.ofLiteral (tree : Json) : Instruction :=
  .ofShape tree (Value.ofScalar? tree)

namespace Program

/-- The program of a list of literals. -/
def ofItems (items : List Json) : Program :=
  Instruction.ofLiteralsOnto [] items

def ofLiteral : Json → Except Fault Program
  | .array items => .ok (ofItems items)
  | literal => .error (.notASequence literal.render)

/-- Reads the source of a program. -/
def parse (source : String) : Except Fault Program :=
  match Json.read source with
  | .ok literal => ofLiteral literal
  | .error problem => .error (.notJson problem)

end Program

end StackScript
