/-
# StackScript.Machine.Evaluate — running programs

`evaluate` runs a program on a machine. Running an instruction may call functions
and so run other programs; how many may run inside each other is limited, and the
definition recurs on the room that the limit leaves. Before a program starts the
context must be valid, and the first program of a context becomes its `main`, in
this order and before the limit is looked at.

`run` takes the call of a program as a parameter. Nothing it does depends on how
that call is made, which is what separates the instructions from the limit.
-/
import StackScript.Construct
import StackScript.Machine.Basic
import StackScript.Slot.Write

namespace StackScript

set_option autoImplicit false

/-- What happens after an instruction. -/
inductive Flow where
  | next
  /-- The running program is over. -/
  | leave
deriving DecidableEq

namespace Machine

variable {σ : Type}

/-! ## Instructions that call nothing -/

def executePush (path : Path) : Action σ Unit := do
  let context ← Action.getContext
  let value ← Action.onStack (path.resolvePush context.bindings)
  Action.push value

/-- Work in place on a variable, and on the stack. However it ends, the variable
holds what the work made of its value. -/
def onVariable {α : Type} (name : String) (held : Value) (work : InPlace α) : Action σ α :=
  fun machine =>
    match work.run (held, machine.context.stack) with
    | (result, held, stack) =>
      (result.mapError fun fault => { fault },
        { machine with context := { machine.context with
            stack, bindings := Entries.replace name held machine.context.bindings } })

/-- Pops a value into a variable, or into a slot inside one. The value is popped
before the target is looked up. -/
def executePop (path : Path) : Action σ Unit := do
  let value ← Action.onStack Stack.pop
  if path.isBare then
    bind path.name value
  else
    let context ← Action.getContext
    match Entries.find? path.name context.bindings with
    | none => Action.fail (.unboundPop path.name)
    | some target =>
      match path.steps context.bindings with
      | .error fault => Action.fail fault
      | .ok steps => onVariable path.name target (Slot.assign value steps)
where
  /-- Binds a variable. -/
  bind (name : String) (value : Value) : Action σ Unit :=
    Action.modifyContext fun context =>
      { context with bindings := Entries.insert name value context.bindings }

/-- The result of an operator on two values, the first popped first. -/
def combine (op : Control) (a b : Value) : Except Fault Value :=
  if a.type ≠ b.type then .error (.unequalTypes a.type op.text b.type)
  else
    match op, a, b with
    | .add, .number x, .number y => .ok (.number (x + y))
    | .subtract, .number x, .number y => .ok (.number (x - y))
    | .add, .text s, .text t => .ok (.text (s ++ t))
    | .add, _, _ => .error (.notAddable a.type)
    | _, _, _ => .error (.notSubtractable op.text a.type)

def executeOperator (op : Control) : Action σ Unit := do
  let a ← Action.onStack Stack.pop
  let b ← Action.onStack Stack.pop
  match combine op a b with
  | .ok value => Action.push value
  | .error fault => Action.fail fault

variable [Host σ]

def executeControl : Control → Action σ Flow
  | .nop | .multiply | .divide => pure .next
  | .leave => pure .leave
  | .exit => Action.fail .terminated
  | .flush => do
    Action.modifyContext fun context => { context with stack := [] }
    pure .next
  | .put => do
    let value ← Action.onStack Stack.pop
    Action.modifyHost (Host.emit value.output)
    pure .next
  | .clear => do
    Action.modifyHost Host.clear
    pure .next
  | .add => do
    executeOperator .add
    pure .next
  | .subtract => do
    executeOperator .subtract
    pure .next

/-! ## Calls -/

/-- Calls a function, given how a program is called. After a native the context
must be valid again, unless the native itself failed. -/
def invoke (settings : Settings σ) (call : Program → Action σ Unit) : Body → Action σ Unit
  | .program program => call program
  | .native name => do
    Action.runNative (settings.natives name)
    let context ← Action.getContext
    if context.isValid then pure () else Action.fail .unsafeContext

def executeCall (settings : Settings σ) (call : Program → Action σ Unit) (name : String) :
    Action σ Unit := do
  let context ← Action.getContext
  match Entries.find? name context.functions with
  | some body => invoke settings call body
  | none => Action.fail (.undefinedFunction name)

/-- Pushes a variable as the receiver, then calls the function in a slot of it. -/
def executeMethod (settings : Settings σ) (call : Program → Action σ Unit) (path : Path) :
    Action σ Unit := do
  let context ← Action.getContext
  match Entries.find? path.name context.bindings with
  | none => Action.fail (.unboundReceiver path.name)
  | some receiver =>
    match path.steps context.bindings with
    | .error fault => Action.fail fault
    | .ok steps =>
      match ← Action.onStack (Slot.read receiver steps) with
      | some (.function body) =>
        Action.push receiver
        invoke settings call body
      | found => Action.fail (.notAFunction path.text (found.map Value.type))

def executeToken (settings : Settings σ) (call : Program → Action σ Unit) :
    Token → Action σ Flow
  | .push path => do
    executePush path
    pure .next
  | .pop path => do
    executePop path
    pure .next
  | .method path => do
    executeMethod settings call path
    pure .next
  | .call name => do
    executeCall settings call name
    pure .next
  | .control op => executeControl op

def execute (settings : Settings σ) (call : Program → Action σ Unit) :
    Instruction → Action σ Flow
  | .value held => do
    Action.push held
    pure .next
  | .literal tree => do
    let context ← Action.getContext
    let value ← Action.onStack (construct context.bindings tree)
    Action.push value
    pure .next
  | .token _ read => executeToken settings call read
  | .invalid _ fault => Action.fail fault

/-! ## Programs -/

/-- Adds a record to the trace, if tracing is on. -/
def observe (settings : Settings σ) (position : Nat) (instruction : Instruction) :
    Action σ Unit :=
  if settings.tracing then
    modify fun machine =>
      let record : TraceRecord σ :=
        { depth := machine.depth, position, instruction
          stack := machine.context.stack, host := machine.host }
      { machine with newestTrace := record :: machine.newestTrace }
  else pure ()

/-- Runs instructions from a position on, until one of them ends the program. -/
def run (settings : Settings σ) (call : Program → Action σ Unit) (position : Nat) :
    Program → Action σ Unit
  | [] => pure ()
  | instruction :: rest => do
    observe settings position instruction
    match ← Action.within instruction (execute settings call instruction) with
    | .next => run settings call (position + 1) rest
    | .leave => pure ()

/-- Prepares for a program: the context must be valid, and gets its `main`. -/
def prepare (program : Program) : Action σ Unit := do
  let context ← Action.getContext
  if context.isValid then Action.modifyContext (Context.bindMain program)
  else Action.fail .invalidApi

/-- Runs a program where `room` more programs may run inside each other. -/
def evaluateWithin (settings : Settings σ) : Nat → Program → Action σ Unit
  | 0, program => do
    prepare program
    Action.fail (.callDepthExceeded settings.limit)
  | room + 1, program => do
    prepare program
    Action.deeper (run settings (evaluateWithin settings room) 0 program)

/-- Runs a program on the machine, within the limit. -/
def evaluate (settings : Settings σ) (program : Program) : Action σ Unit := do
  let machine ← get
  evaluateWithin settings (settings.limit - machine.depth) program

end Machine

end StackScript
