/-
# StackScript.Command.Basic — what a command line asks for

`Command.ofArgs` reads the arguments behind the program's name: the flags first,
then a file to run, or a command and its file. A first argument whose last part
ends in `.json` is a file to run, whatever it is otherwise called.
-/
import StackScript.Command.Flags
import StackScript.Fault

namespace StackScript

set_option autoImplicit false

/-- Why a file cannot be read. -/
inductive Unreadable where
  /-- Nothing has this name. -/
  | absent
  | denied
  /-- Something that is no folder stands where the path goes on. -/
  | notFolder
  /-- The path leads to a folder. -/
  | isFolder
  | nameTooLong
  /-- The content is no UTF-8. -/
  | notText
  | other (reason : String)
deriving DecidableEq

def Unreadable.message : Unreadable → String
  | .absent => "No such file or directory (os error 2)"
  | .denied => "Permission denied (os error 13)"
  | .notFolder => "Not a directory (os error 20)"
  | .isFolder => "Is a directory (os error 21)"
  | .nameTooLong => "File name too long (os error 36)"
  | .notText => "stream did not contain valid UTF-8"
  | .other reason => reason

/-- The parts of a path between its slashes. -/
def pathParts (path : String) : List String :=
  (path.toList.splitOn '/').map String.ofList

/-- How a command line can be wrong. -/
inductive Misuse where
  | limit (misuse : Command.LimitMisuse)
  | runWithoutFile
  | tokensWithoutFile
  | unknownCommand (name : String)
deriving DecidableEq

def Misuse.message : Misuse → String
  | .limit .missing => "Usage: flex <file.json> --max-depth <n>"
  | .limit .invalid => "Error: --max-depth expects a positive integer."
  | .runWithoutFile => "Usage: flex run <file.json>"
  | .tokensWithoutFile => "Usage: flex tokens <file.json>"
  | .unknownCommand name => "Error: unknown command " ++ Fault.quoted name

inductive Command where
  | help
  | run (path : String) (trace : Bool) (limit : Nat)
  | tokens (path : String)
  | interact (trace : Bool) (limit : Nat)
  | misused (misuse : Misuse)
deriving DecidableEq

namespace Command

/-- The last part of a path, past slashes at its end and parts that are a dot. -/
def lastPart? (path : String) : Option String :=
  (pathParts path).reverse.find? fun part => part != "" && part != "."

/-- Whether the last part of a path has the extension `json` behind a stem. -/
def isJsonFile (path : String) : Bool :=
  match lastPart? path with
  | none => false
  | some part =>
    match part.toList.reverse.span (· != '.') with
    | (extension, _ :: stem) => extension == ['n', 'o', 's', 'j'] && !stem.isEmpty
    | (_, []) => false

/-- What the arguments that are no flags ask for. -/
def ofPlainArgs (trace : Bool) (limit : Nat) : List String → Command
  | [] => .help
  | first :: rest =>
    if isJsonFile first then .run first trace limit
    else if first = "-h" ∨ first = "--help" ∨ first = "help" then .help
    else if first = "run" then
      match rest with
      | path :: _ => .run path trace limit
      | [] => .misused .runWithoutFile
    else if first = "tokens" then
      match rest with
      | path :: _ => .tokens path
      | [] => .misused .tokensWithoutFile
    else if first = "repl" then .interact trace limit
    else .misused (.unknownCommand first)

def ofArgs (args : List String) : Command :=
  let (trace, args) := takeTrace args
  match takeLimit args with
  | .error misuse => .misused (.limit misuse)
  | .ok (limit, args) => ofPlainArgs trace limit args

/-- The file that a command reads. -/
def file? : Command → Option String
  | .run path .. => some path
  | .tokens path => some path
  | _ => none

end Command

end StackScript
