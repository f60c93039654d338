/-
# StackScript.Context — stack, variables and functions

A stack is a list with its top first. `OnStack` is work that may change the stack
and may fail; what it popped before a failure stays popped.

A context is what programs run against: a stack, variables and functions. It is
valid when every variable and every function has a name that a program can write.
`Context.initial` is the context of a new session: empty but for the three natives
of the host.
-/
import StackScript.Value.Basic

namespace StackScript

set_option autoImplicit false

/-- Values, the top first. -/
abbrev Stack := List Value

/-- Work on the stack that may fail. -/
abbrev OnStack (α : Type) := ExceptT Fault (StateM Stack) α

namespace Stack

/-- Lays a value on top. -/
def push (value : Value) : OnStack Unit :=
  modify (value :: ·)

/-- Takes the top value off. -/
def pop : OnStack Value := do
  match ← get with
  | [] => throw .stackUnderflow
  | value :: rest =>
    set rest
    pure value

end Stack

structure Context where
  stack : Stack := []
  bindings : List (String × Value) := []
  functions : List (String × Body) := []

namespace Context

/-- Every variable and every function bears a name. -/
def isValid (context : Context) : Bool :=
  context.bindings.all (fun entry => isName entry.1) &&
    context.functions.all (fun entry => isName entry.1)

/-- A context of the given parts, which must be valid. -/
def ofParts? (stack : Stack) (bindings : List (String × Value))
    (functions : List (String × Body)) : Except Fault Context :=
  let context : Context := { stack, bindings, functions }
  if context.isValid then .ok context else .error .unsafeContext

/-- The natives every session starts with. -/
def nativeNames : List String :=
  ["stack-dump", "help", "read-line"]

def initial : Context where
  functions := Entries.ofList (nativeNames.map fun name => (name, .native name))

/-- The function that stands for the first program of a context. -/
def mainName : String := "main"

/-- Remembers a program as `main`, unless a function of that name exists. -/
def bindMain (program : Program) (context : Context) : Context :=
  match Entries.find? mainName context.functions with
  | some _ => context
  | none =>
    { context with functions := Entries.insert mainName (.program program) context.functions }

end Context

end StackScript
