/-
# StackScript.Command.Execute — what a command does

`Command.execute` is the whole command line as a function: from a command, the
file it reads and its input to what is written and the exit status. Records of a
trace are written in between the other output, where the machine made them.

While the input is still being typed, `Outcome.pending` is what stands on the
screen at the moment when another line is needed.
-/
import StackScript.Command.Basic
import StackScript.Command.Interact
import StackScript.Machine.Basic

namespace StackScript

set_option autoImplicit false

structure Outcome where
  status : Nat := 0
  stdout : String := ""
  stderr : String := ""
  /-- What had been written when the input first ran out, if it did. -/
  pending : Option String := none

namespace Command

/-- Puts records of a trace where they belong among the pieces of an output, of
which `written` stand before them. -/
def weave (written : Nat) (pieces : List String) : List (TraceRecord Terminal) → List String
  | [] => pieces
  | record :: rest =>
    let before := record.host.newestOutput.length
    pieces.take (before - written) ++
      record.text :: weave before (pieces.drop (before - written)) rest

/-- Everything a machine has written to its terminal, with the trace. -/
def shown (machine : Machine Terminal) : String :=
  String.join (weave 0 machine.host.newestOutput.reverse machine.trace)

/-- The part of it that had been written when the input ran out. -/
def shownWhenStarved (machine : Machine Terminal) : Option String :=
  match machine.host.starved with
  | none => none
  | some pieces =>
    let records := machine.trace.filter fun record => record.host.starved.isNone
    some (String.join (weave 0 pieces.reverse records))

def helpText : String :=
  String.join (List.map (fun line => line ++ "\n")
    [ "FLEX stack-language evaluator",
      "",
      "Usage:",
      "  flex <file.json>",
      "  flex run <file.json>",
      "  flex tokens <file.json>",
      "  flex repl",
      "",
      "Flags:",
      "  --trace            Print every instruction and the stack before it runs",
      "  --max-depth <n>    Limit nested program calls (default: " ++ toString defaultLimit ++ ")",
      "  -h, --help         Show this help message" ])

def settings (trace : Bool) (limit : Nat) : Settings Terminal :=
  { natives := Native.standard, limit, tracing := trace }

/-- Runs a source from beginning to end. -/
def runProgram (trace : Bool) (limit : Nat) (source : String) (input : Input) : Outcome :=
  let (result, machine) :=
    (Machine.runSource (settings trace limit) source).run { host := { input } }
  let stdout := shown machine
  let pending := shownWhenStarved machine
  match result with
  | .ok _ => { stdout, pending }
  | .error failure =>
    if failure.fault.terminates then { stdout := stdout ++ failure.display ++ "\n", pending }
    else { status := 1, stdout, stderr := failure.display ++ "\n", pending }

/-- The lines that list an instruction. -/
def listing (position : Nat) (instruction : Instruction) : String :=
  let line :=
    padStart 4 (toString position) ++ " " ++ padEnd 10 instruction.label ++ " " ++
      instruction.text ++ "\n"
  match instruction with
  | .invalid _ fault =>
    line ++ padStart 4 "" ++ " " ++ padEnd 10 "" ++ " [" ++ fault.kind.code ++ " " ++
      fault.kind.title ++ "] " ++ { fault : Failure }.display ++ "\n"
  | _ => line

/-- The lines that list the instructions of a program from a position on. -/
def listings (out : String) (position : Nat) : Program → String
  | [] => out
  | instruction :: rest => listings (out ++ listing position instruction) (position + 1) rest

/-- Lists the instructions of a source. -/
def listProgram (path source : String) : Outcome :=
  match Program.parse source with
  | .error fault => { status := 1, stderr := { fault : Failure }.display ++ "\n" }
  | .ok program =>
    let header := "Instructions from " ++ path ++ ":\n" ++ "".pushn '─' 50 ++ "\n"
    { stdout := listings header 0 program }

/-- Executes a command. `readFile` gives the content of a file, or the reason why
it cannot be read. -/
def execute (command : Command) (readFile : String → Except Unreadable String)
    (input : Input) : Outcome :=
  match command with
  | .help => { stdout := helpText }
  | .run path trace limit => onFile path fun source => runProgram trace limit source input
  | .tokens path => onFile path (listProgram path)
  | .interact trace limit =>
    let machine := converse (settings trace limit) input
    { stdout := shown machine, pending := shownWhenStarved machine }
  | .misused misuse =>
    { status := 1
      stdout := match misuse with
        | .unknownCommand _ => helpText
        | _ => ""
      stderr := misuse.message ++ "\n" }
where
  /-- Goes on with the content of a file. -/
  onFile (path : String) (use : String → Outcome) : Outcome :=
    match readFile path with
    | .ok source => use source
    | .error reason =>
      { status := 1, stderr := "Error reading " ++ path ++ ": " ++ reason.message ++ "\n" }

end Command

end StackScript
