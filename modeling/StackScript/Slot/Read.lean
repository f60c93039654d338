/-
# StackScript.Slot.Read — reading a slot inside a container

The walk enters a slot while steps remain and the slot may be entered: an array
inside an array, any container inside a dict. A dict inside an array is a fault.
A slot that holds no container ends the walk early, and the steps left over are
ignored. An absent slot is no fault; it reads as `none`.
-/
import StackScript.Slot.Basic

namespace StackScript

set_option autoImplicit false

namespace Value

/-- The slot of a container under an index. -/
def slot? : Value → Index → Except Fault (Option Value)
  | .array items, .position n => .ok items[n]?
  | .array _, .key name => .error (.keyOnArray name)
  | .dict entries, index => .ok (Entries.find? index.toKey entries)
  | value, _ => .error (.notIndexable value.type)

/-- Whether the walk goes on from a container into one of its slots. -/
def enters : Value → Value → Except Fault Bool
  | .array _, .array _ => .ok true
  | .array _, .dict _ => .error .dictInArray
  | .dict _, slot => .ok slot.isContainer
  | _, _ => .ok false

end Value

namespace Slot

/-- Walks on from `current`. -/
def walk (current : Value) : List Step → OnStack (Option Value)
  | [] => pure (some current)
  | step :: rest => do
    let index ← step.resolve
    match current.slot? index with
    | .error fault => throw fault
    | .ok none => pure none
    | .ok (some slot) =>
      if rest.isEmpty then pure (some slot)
      else
        match current.enters slot with
        | .error fault => throw fault
        | .ok true => walk slot rest
        | .ok false => pure (some slot)

/-- Reads the slot that a path leads to inside a container. -/
def read (container : Value) (path : List Step) : OnStack (Option Value) :=
  if container.isContainer then walk container path
  else throw (.notIndexable container.type)

end Slot

end StackScript
