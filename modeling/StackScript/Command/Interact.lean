/-
# StackScript.Command.Interact — the interactive loop

The loop prompts for an entry, submits it to a session and writes the reply,
until the input ends, the session ends, or someone quits. A blank entry is
skipped, and entries that start with a colon may be commands of the loop. A
program that asks for a line reads it from the same input.
-/
import StackScript.Entry
import StackScript.Host.Terminal
import StackScript.Session

namespace StackScript.Command

set_option autoImplicit false

/-- White space in the sense of Unicode. -/
def isBlank (c : Char) : Bool :=
  let n := c.toNat
  decide (0x09 ≤ n ∧ n ≤ 0x0D) || n == 0x20 || n == 0x85 || n == 0xA0 || n == 0x1680 ||
    decide (0x2000 ≤ n ∧ n ≤ 0x200A) || n == 0x2028 || n == 0x2029 || n == 0x202F ||
    n == 0x205F || n == 0x3000

/-- A text without the white space around it. -/
def trim (text : String) : String :=
  String.ofList ((text.toList.dropWhile isBlank).reverse.dropWhile isBlank).reverse

def greeting : String :=
  "FLEX REPL v" ++ version ++ " (type :help for help, :quit to exit)"

def loopHelp : List String :=
  [ "Commands:",
    "  :quit, :q    Exit the REPL",
    "  :help, :h    Show this help message",
    "",
    "Enter a program as a JSON array; it runs in the session context.",
    "Multi-line input: unmatched brackets trigger continuation prompt.",
    "The `help' function lists the language basics:" ] ++
    helpLines.map fun line => "  " ++ line

def showLoopHelp (terminal : Terminal) : Terminal :=
  loopHelp.foldl (fun terminal line => terminal.writeLine line) terminal

/-- Changes the terminal of a session. -/
def onTerminal (change : Terminal → Terminal) (session : Session Terminal) : Session Terminal :=
  { session with machine := { session.machine with host := change session.machine.host } }

/-- Prompts for an entry and reads it. -/
def promptEntry (session : Session Terminal) : Option String × Session Terminal :=
  let reading := readEntry session.machine.host.input
  let after (terminal : Terminal) : Terminal :=
    let prompted := terminal.write "> "
    let continued := reading.continued.repeat (·.write "... ") prompted
    let read := { continued with input := reading.rest }
    if reading.starved then read.starve else read
  (reading.entry, onTerminal after session)

/-- The loop, for at most `rounds` entries. -/
def loop : Nat → Session Terminal → Session Terminal
  | 0, session => session
  | rounds + 1, session =>
    match promptEntry session with
    | (none, session) => session
    | (some entry, session) =>
      let entry := trim entry
      if entry.isEmpty then loop rounds session
      else if entry = ":quit" ∨ entry = ":q" then session
      else if entry = ":help" ∨ entry = ":h" then
        loop rounds (onTerminal showLoopHelp session)
      else
        let (reply, session) := session.submit entry
        let session := onTerminal (·.writeLine reply.text) session
        if reply = .dead then session else loop rounds session

/-- A whole conversation. Every entry takes a line of the input at least, so one
round more than there are lines is enough. -/
def converse (settings : Settings Terminal) (input : Input) : Machine Terminal :=
  let session := Session.start settings { input }
  let session := onTerminal (·.writeLine greeting) session
  let session := loop (input.length + 1) session
  (onTerminal (·.writeLine "Goodbye!") session).machine

end StackScript.Command
