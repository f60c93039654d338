/-
# StackScript.Machine.Native — the natives of every session

`stack-dump` emits the whole stack on one line, `help` emits a few lines of help,
and `read-line` pops a message, asks the host with it and pushes the answer.
-/
import StackScript.Machine.Basic
import StackScript.Value.Literal

namespace StackScript

set_option autoImplicit false

def version : String := "0.1.1"

def helpLines : List String :=
  [ "*** flex help v" ++ version ++ " ***",
    "Type your program as a JSON array, e.g. [1, 2, \"+\", \"#put\"]",
    "Push with `$name', bind with `&name', call functions by name",
    "Use sharp function `clear' to clear and sharp function `put' to print something" ]

namespace Native

variable {σ : Type} [Host σ]

def emit (line : String) : OnHost σ Unit :=
  modify fun (context, host) => (context, Host.emit line host)

def stackDump : OnHost σ Unit := do
  let (context, _) ← get
  emit (String.intercalate "; " (context.stack.reverse.map Value.output))

def help : OnHost σ Unit :=
  helpLines.forM emit

def readLine : OnHost σ Unit := do
  let (context, host) ← get
  match context.stack with
  | [] => throw { fault := .stackUnderflow }
  | .text message :: rest =>
    match Host.ask message host with
    | (some answer, host) => set ({ context with stack := .text answer :: rest }, host)
    | (none, host) =>
      set ({ context with stack := rest }, host)
      throw { fault := .inputExhausted }
  | value :: rest =>
    set ({ context with stack := rest }, host)
    throw { fault := .promptNotText value.type }

/-- The natives of every session; a name that is none of theirs is undefined. -/
def standard : String → OnHost σ Unit
  | "stack-dump" => stackDump
  | "help" => help
  | "read-line" => readLine
  | name => throw { fault := .undefinedFunction name }

end Native

end StackScript
