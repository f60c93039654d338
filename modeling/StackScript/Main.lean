/-
# StackScript.Main — the command line

The command line reads the file that its command names, then runs the command on
the lines typed so far. When the command needs a line that has not been typed,
what it has shown until then is printed, one more line is read, and the command
runs again on all lines; running it again changes nothing that has been shown.
-/
import StackScript.Command.Execute

open StackScript

/-- The reason behind an error of the system. The system's code is negated if the
file could not be opened, and plain if it could not be read. -/
def StackScript.Unreadable.ofError : IO.Error → Unreadable
  | .noFileOrDirectory .. => .absent
  | .inappropriateType _ code _ => if code = 21 ∨ code = -21 then .isFolder else .notFolder
  | .permissionDenied .. => .denied
  | .invalidArgument _ code details =>
    if code = 36 ∨ code = -36 then .nameTooLong else .other details
  | error => .other (toString error)

/-- Reads the file a command names, if it names one. -/
def StackScript.readSource (command : Command) : IO (String → Except Unreadable String) := do
  match command.file? with
  | none => pure fun _ => .error .absent
  | some path =>
    let content : Except Unreadable String ←
      try
        let bytes ← IO.FS.readBinFile path
        match String.fromUTF8? bytes with
        | some text => pure (.ok text)
        | none => pure (.error .notText)
      catch error => pure (.error (.ofError error))
    pure fun _ => content

/-- The next line of an input, if there is one. -/
partial def StackScript.readLine? (stream : IO.FS.Stream) : IO (Option ByteArray) :=
  go ByteArray.empty
where
  go (line : ByteArray) : IO (Option ByteArray) := do
    let next ← stream.read 1
    if next.isEmpty then pure (if line.isEmpty then none else some line)
    else if next.toList == [10] then pure (some (line ++ next))
    else go (line ++ next)

/-- Runs a command as far as the lines typed so far carry it, and on from there. -/
partial def StackScript.converseOn (command : Command)
    (readFile : String → Except Unreadable String) (input : Input) (printed : Nat) (ended : Bool) :
    IO UInt32 := do
  let stdout ← IO.getStdout
  let outcome := command.execute readFile input
  let more (text : String) : String := String.ofList (text.toList.drop printed)
  match outcome.pending, ended with
  | some shown, false =>
    stdout.putStr (more shown)
    stdout.flush
    match ← readLine? (← IO.getStdin) with
    | some line =>
      converseOn command readFile (input ++ Input.ofBytes line.toList) shown.length false
    | none => converseOn command readFile input shown.length true
  | _, _ =>
    stdout.putStr (more outcome.stdout)
    stdout.flush
    (← IO.getStderr).putStr outcome.stderr
    pure (UInt32.ofNat outcome.status)

def main (args : List String) : IO UInt32 := do
  let command := Command.ofArgs args
  let readFile ← readSource command
  converseOn command readFile [] 0 false
