/-
# StackScript.Machine.Basic — the machine that runs programs

A machine holds a context, its host, the number of programs it is in the middle
of, and the trace. An `Action` changes the machine and may fail; whatever it did
before a failure stays done. A native is a host function: it may change context
and host in any way, and fail in any way.

A record of the trace is shown on two lines: where the machine is and what it is
about to do, then the stack from the bottom up.
-/
import StackScript.Context
import StackScript.Host.Basic
import StackScript.Shape

namespace StackScript

set_option autoImplicit false

/-- What the machine was about to do: one entry of a trace. -/
structure TraceRecord (σ : Type) where
  depth : Nat
  position : Nat
  instruction : Instruction
  stack : Stack
  /-- The host at that moment. -/
  host : σ

structure Machine (σ : Type) where
  context : Context := {}
  host : σ
  /-- How many programs are running, each inside the one before it. -/
  depth : Nat := 0
  /-- The trace, newest record first. -/
  newestTrace : List (TraceRecord σ) := []

/-- The trace in order. -/
def Machine.trace {σ : Type} (machine : Machine σ) : List (TraceRecord σ) :=
  machine.newestTrace.reverse

abbrev Action (σ α : Type) := ExceptT Failure (StateM (Machine σ)) α

/-- Work on a context and its host that may fail. -/
abbrev OnHost (σ α : Type) := ExceptT Failure (StateM (Context × σ)) α

/-- What a native does. -/
abbrev Native (σ : Type) := OnHost σ Unit

structure Settings (σ : Type) where
  /-- What the natives do, by name. -/
  natives : String → Native σ
  /-- How many programs may run inside each other. -/
  limit : Nat := 256
  tracing : Bool := false

namespace Action

variable {σ α : Type}

def fail (fault : Fault) : Action σ α :=
  throw { fault }

def getContext : Action σ Context := do
  pure (← get).context

def modifyContext (change : Context → Context) : Action σ Unit :=
  modify fun machine => { machine with context := change machine.context }

def modifyHost (change : σ → σ) : Action σ Unit :=
  modify fun machine => { machine with host := change machine.host }

/-- Does work on the stack of the machine. -/
def onStack (work : OnStack α) : Action σ α := fun machine =>
  match work.run machine.context.stack with
  | (.ok result, stack) =>
    (.ok result, { machine with context := { machine.context with stack } })
  | (.error fault, stack) =>
    (.error { fault }, { machine with context := { machine.context with stack } })

/-- Runs a native on the context and the host of the machine. -/
def runNative (native : Native σ) : Action σ Unit := fun machine =>
  match native.run (machine.context, machine.host) with
  | (result, context, host) => (result, { machine with context, host })

def push (value : Value) : Action σ Unit :=
  modifyContext fun context => { context with stack := value :: context.stack }

/-- A failure on its way out passes an instruction. -/
def within (instruction : Instruction) (action : Action σ α) : Action σ α :=
  ExceptT.adapt (fun failure => failure.within instruction.text) action

/-- Counts one more running program while the action runs, however it ends. -/
def deeper (action : Action σ α) : Action σ α := fun machine =>
  match action.run { machine with depth := machine.depth + 1 } with
  | (result, machine) => (result, { machine with depth := machine.depth - 1 })

end Action

/-! ## Traces in print -/

/-- Zeros in front, up to a width. -/
def padNumber (width n : Nat) : String :=
  let digits := toString n
  "".pushn '0' (width - digits.length) ++ digits

/-- Blanks behind, up to a width. -/
def padEnd (width : Nat) (text : String) : String :=
  text.pushn ' ' (width - text.length)

/-- Blanks in front, up to a width. -/
def padStart (width : Nat) (text : String) : String :=
  "".pushn ' ' (width - text.length) ++ text

/-- The two lines of a record. -/
def TraceRecord.text {σ : Type} (record : TraceRecord σ) : String :=
  "D=" ++ padNumber 2 record.depth ++ " IP=" ++ padNumber 4 record.position ++ " " ++
    padEnd 8 record.instruction.label ++ " " ++ record.instruction.text ++ "\n" ++
    "  stack: [" ++ String.intercalate ", " (record.stack.reverse.map Value.display) ++ "]\n"

end StackScript
