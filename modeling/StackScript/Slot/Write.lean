/-
# StackScript.Slot.Write — writing a slot inside a container

`Slot.assign` writes a container in place. The walk is that of reading, and the
slots on the way are written in place too, so whatever a failed write had done to
one of them would stay. A write past the end of an array fills the gap with nulls,
at most 65536 new slots at a time; a key that a dict lacks is made.

`Slot.write` gives the container as it is after a write that succeeds.
-/
import StackScript.Slot.Read

namespace StackScript

set_option autoImplicit false

/-- Work on a value in place, and on the stack, that may fail. What it did to either
before a failure stays done. -/
abbrev InPlace (α : Type) := ExceptT Fault (StateM (Value × Stack)) α

namespace InPlace

variable {α : Type}

/-- The value in the place. -/
def current : InPlace Value := do
  pure (← get).1

/-- Puts another value in the place. -/
def put (value : Value) : InPlace Unit :=
  modify fun (_, stack) => (value, stack)

/-- Work on the stack alone. -/
def onStack (work : OnStack α) : InPlace α := fun (value, stack) =>
  match work.run stack with
  | (result, stack) => (result, value, stack)

/-- Work in place on a slot of the value. However it ends, the slot as it then is
goes back. -/
def inside (slot : Value) (putBack : Value → Value) (work : InPlace α) : InPlace α :=
  fun (_, stack) =>
    match work.run (slot, stack) with
    | (result, slot, stack) => (result, putBack slot, stack)

/-- What work in place makes of a value, if it succeeds. -/
def outcome (work : InPlace Unit) (value : Value) : OnStack Value := fun stack =>
  match work.run (value, stack) with
  | (.ok (), value, stack) => (.ok value, stack)
  | (.error fault, _, stack) => (.error fault, stack)

end InPlace

namespace Slot

/-- The most slots that one write may add to an array. -/
def maxGrowth : Nat := 65536

/-- Puts a value at a position of an array, which grows as far as it may. -/
def store (items : List Value) (position : Nat) (value : Value) : Except Fault (List Value) :=
  if position < items.length then .ok (items.set position value)
  else if position + 1 - items.length ≤ maxGrowth then
    .ok (items ++ List.replicate (position - items.length) .null ++ [value])
  else .error (.positionOutOfRange (toString position))

/-- Writes a value into the slot that a path leads to; an empty path replaces the
container itself. -/
def assign (value : Value) : List Step → InPlace Unit
  | [] => InPlace.put value
  | step :: rest => do
    let index ← InPlace.onStack step.resolve
    match ← InPlace.current with
    | .array items =>
      match index with
      | .key name => throw (.keyOnArray name)
      | .position n =>
        let putBack slot := Value.array (items.set n slot)
        match if rest.isEmpty then none else items[n]? with
        | some (.array inner) => InPlace.inside (.array inner) putBack (assign value rest)
        | some (.dict _) => throw .dictInArray
        | _ =>
          match store items n value with
          | .ok stored => InPlace.put (.array stored)
          | .error fault => throw fault
    | .dict entries =>
      let putBack slot := Value.dict (Entries.replace index.toKey slot entries)
      match if rest.isEmpty then none else Entries.find? index.toKey entries with
      | some (.array inner) => InPlace.inside (.array inner) putBack (assign value rest)
      | some (.dict inner) => InPlace.inside (.dict inner) putBack (assign value rest)
      | _ => InPlace.put (.dict (Entries.insert index.toKey value entries))
    | other => throw (.notIndexable other.type)

/-- The container as it is after a write. -/
def write (value container : Value) (path : List Step) : OnStack Value :=
  (assign value path).outcome container

end Slot

end StackScript
