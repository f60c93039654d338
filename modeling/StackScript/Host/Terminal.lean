/-
# StackScript.Host.Terminal — a host on a terminal

A terminal holds what has been written to it and the input not yet read. Emitting
writes a line, clearing writes the control sequence that clears the screen, and
asking writes the message and a space and reads a line. The end of the input and
an unreadable line both end the asking.
-/
import StackScript.Entry
import StackScript.Host.Basic

namespace StackScript

set_option autoImplicit false

structure Terminal where
  /-- The pieces written so far, newest first. -/
  newestOutput : List String := []
  /-- The lines not yet read. -/
  input : Input := []
  /-- What had been written when a reading first found no line left. -/
  starved : Option (List String) := none

namespace Terminal

def write (piece : String) (terminal : Terminal) : Terminal :=
  { terminal with newestOutput := piece :: terminal.newestOutput }

def writeLine (line : String) (terminal : Terminal) : Terminal :=
  terminal.write (line ++ "\n")

/-- Everything written. -/
def output (terminal : Terminal) : String :=
  String.join terminal.newestOutput.reverse

/-- The sequence that clears a screen and moves to its top. -/
def clearSequence : String :=
  "\x1b[2J\x1b[H"

/-- A line without the line feeds and carriage returns at its end. -/
def trimEnd (line : String) : String :=
  String.ofList (line.toList.reverse.dropWhile fun c => c == '\r' || c == '\n').reverse

/-- A reading has found no line left. -/
def starve (terminal : Terminal) : Terminal :=
  match terminal.starved with
  | some _ => terminal
  | none => { terminal with starved := some terminal.newestOutput }

/-- Asks with the given lines to read: the answer, and the terminal after it. -/
def askFrom (message : String) (terminal : Terminal) : Input → Option String × Terminal
  | [] => (none, { terminal.write (message ++ " ") with input := [] }.starve)
  | .unreadable :: rest => (none, { terminal.write (message ++ " ") with input := rest })
  | .text line :: rest =>
    let answer := trimEnd line
    if answer.isEmpty then askFrom message (terminal.write (message ++ " ")) rest
    else (some answer, { terminal.write (message ++ " ") with input := rest })

instance : Host Terminal where
  emit line terminal := terminal.writeLine line
  clear terminal := terminal.write clearSequence
  ask message terminal := askFrom message terminal terminal.input

end Terminal

end StackScript
