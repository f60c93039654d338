/-
# StackScript.Construct — values from literals

A literal becomes a value at the moment it is reached. Strings inside array and
dict literals are pushes, resolved then and there; their `&0` segments pop the
stack, and nothing else in a context is touched. The value of an array's element
never lies on the stack; that of a dict's entry is pushed and popped again.
-/
import StackScript.Program
import StackScript.Slot.Read

namespace StackScript

set_option autoImplicit false

/-- The value that a push designates. -/
def Path.resolvePush (bindings : List (String × Value)) (path : Path) : OnStack Value :=
  match Entries.find? path.name bindings with
  | none => throw (.unboundPush path.name)
  | some root =>
    if path.isBare then pure root
    else
      match path.steps bindings with
      | .error fault => throw fault
      | .ok steps => do
        match ← Slot.read root steps with
        | some value => pure value
        | none => throw (.absentSlot path.text)

/-- The value of a string inside an array or dict literal. -/
def resolveElement (bindings : List (String × Value)) (text : String) : OnStack Value :=
  match Path.ofPush? text with
  | some path => path.resolvePush bindings
  | none => throw (.notAPush text)

/-- Pushes the value of such a string. -/
def pushElement (bindings : List (String × Value)) (text : String) : OnStack Unit := do
  let value ← resolveElement bindings text
  Stack.push value

mutual

/-- The value of a literal, by its shape. -/
def construct (bindings : List (String × Value)) (tree : Json) : OnStack Value :=
  match tree.shape, tree with
  | .absent, _ => pure .null
  | .boolean, .bool b => pure (.boolean b)
  | .number, .integer n => pure (.number (Number.ofInt n))
  | .number, .float x _ => pure (.number x)
  | .text, .array [.string text] => pure (.text text)
  | .function, .array items => pure (.function (.program (Program.ofItems items)))
  | .array, .object [(_, .array items)] => constructItems bindings [] items
  | .dict, .object [(_, .object entries)] => constructEntries bindings [] entries
  | _, tree => throw (.unknownType tree.render)

/-- The array of literals, after the values found so far, which come newest first. -/
def constructItems (bindings : List (String × Value)) (found : List Value) :
    List Json → OnStack Value
  | [] => pure (.array found.reverse)
  | .string text :: rest => do
    let value ← resolveElement bindings text
    constructItems bindings (value :: found) rest
  | literal :: rest => do
    let value ← construct bindings literal
    constructItems bindings (value :: found) rest

/-- The dict of entries, on top of those found so far. -/
def constructEntries (bindings : List (String × Value)) (found : List (String × Value)) :
    List (String × Json) → OnStack Value
  | [] => pure (.dict found)
  | (key, .string text) :: rest => do
    pushElement bindings text
    let value ← Stack.pop
    constructEntries bindings (Entries.insert key value found) rest
  | (key, literal) :: rest => do
    let value ← construct bindings literal
    constructEntries bindings (Entries.insert key value found) rest

end

end StackScript
