/-
# StackScript.Command.Flags — the flags of the command line

Flags may stand anywhere among the arguments. `--trace` is taken out wherever it
stands; then every `--max-depth` is taken out with the argument after it, from
the left. The last depth given counts.
-/
import StackScript.Number.Decimal

namespace StackScript.Command

set_option autoImplicit false

/-- The depth limit when no flag sets one. -/
def defaultLimit : Nat := 256

/-- A positive number of 64 bits, written in digits and perhaps a plus sign. -/
def readLimit? (text : String) : Option Nat :=
  (Number.readWord? text).filter fun found => 0 < found

/-- What can be wrong with a depth flag. -/
inductive LimitMisuse where
  /-- No argument follows the flag. -/
  | missing
  /-- The argument that follows is no positive number. -/
  | invalid
deriving DecidableEq

def limitFlag : String := "--max-depth"

/-- Takes the depth flags out, from the argument at `place` on. `limit` is the last
depth found so far. A flag goes with the argument after it, and what stands behind
the two moves up to `place`, so the scan goes on there. -/
def takeLimitFrom (limit : Nat) (args : List String) (place : Nat) :
    Except LimitMisuse (Nat × List String) :=
  if inside : place < args.length then
    if args[place] = limitFlag then
      if followed : place + 1 < args.length then
        match readLimit? args[place + 1] with
        | some found => takeLimitFrom found ((args.eraseIdx (place + 1)).eraseIdx place) place
        | none => .error .invalid
      else .error .missing
    else takeLimitFrom limit args (place + 1)
  else .ok (limit, args)
termination_by args.length - place
decreasing_by
  · have shorter := List.length_eraseIdx_le (args.eraseIdx (place + 1)) place
    rw [List.length_eraseIdx_of_lt followed] at shorter
    omega
  · omega

/-- The depth limit, and the arguments that are not part of its flags. -/
def takeLimit (args : List String) : Except LimitMisuse (Nat × List String) :=
  takeLimitFrom defaultLimit args 0

def traceFlag : String := "--trace"

/-- Whether to trace, and the arguments without the flag for it. -/
def takeTrace (args : List String) : Bool × List String :=
  (args.contains traceFlag, args.filter fun arg => arg != traceFlag)

end StackScript.Command
