/-
# StackScript.Session — program after program

A session keeps one machine for all its submissions. What a submission did stays
done, also when it failed halfway; a submission that ends the session is the last
one that has an effect. `runSource` is the other way to run a source: in a new
context on a machine that only keeps its host.
-/
import StackScript.Machine.Evaluate
import StackScript.Machine.Native

namespace StackScript

set_option autoImplicit false

/-- What a session answers. -/
inductive Reply where
  | ok
  | dead
  | error (failure : Failure)
deriving DecidableEq

namespace Reply

def ofResult : Except Failure Unit → Reply
  | .ok _ => .ok
  | .error failure => if failure.fault.terminates then .dead else .error failure

def text : Reply → String
  | .ok => "< OK!"
  | .dead => "< " ++ Fault.terminationMark
  | .error failure => "< " ++ failure.display

end Reply

variable {σ : Type} [Host σ]

/-- Reads a source and runs it, or fails without touching the machine. -/
def Machine.submit (settings : Settings σ) (source : String) : Action σ Unit :=
  match Program.parse source with
  | .ok program => Machine.evaluate settings program
  | .error fault => Action.fail fault

/-- Runs a source in a new context. -/
def Machine.runSource (settings : Settings σ) (source : String) : Action σ Unit :=
  match Program.parse source with
  | .ok program => do
    Action.modifyContext fun _ => Context.initial
    Machine.evaluate settings program
  | .error fault => Action.fail fault

structure Session (σ : Type) where
  settings : Settings σ
  machine : Machine σ
  finished : Bool := false

namespace Session

/-- A session in a new context. -/
def start (settings : Settings σ) (host : σ) : Session σ :=
  { settings, machine := { context := Context.initial, host } }

/-- Answers one submission. -/
def submit (session : Session σ) (source : String) : Reply × Session σ :=
  if session.finished then (.dead, session)
  else
    let (result, machine) := (Machine.submit session.settings source).run session.machine
    let reply := Reply.ofResult result
    (reply, { session with machine, finished := decide (reply = .dead) })

end Session

end StackScript
