/-
# StackScript.Slot.Basic — indexes and the steps of a path

An index is a position of an array or a key of a dict. A path is walked step by
step; a step is an index known beforehand, or `top`, which takes its index from
the stack when the walk gets there.

`Segment.resolve` turns the segments of a written path into steps. Variables and
digits are resolved before the walk begins.
-/
import StackScript.Context
import StackScript.Value.Literal

namespace StackScript

set_option autoImplicit false

inductive Index where
  | position (n : Nat)
  | key (name : String)
deriving DecidableEq

inductive Step where
  | index (known : Index)
  /-- The value on top of the stack, popped when the step is reached. -/
  | top
deriving DecidableEq

namespace Index

/-- The largest position that a number can name, `2 ^ 53`. -/
def maxPosition : Nat := 9007199254740992

/-- The index a value stands for. An integer from zero on is a position, text is
a key; an integer beyond the largest position is out of range. -/
def ofValue : Value → Except Fault Index
  | .text name => .ok (.key name)
  | .number x =>
    match Number.integer? x with
    | some n =>
      if n < 0 then .error (.invalidIndex (Number.text x))
      else if n.toNat ≤ maxPosition then .ok (.position n.toNat)
      else .error (.positionOutOfRange (Number.Layout.exponential.text x))
    | none => .error (.invalidIndex (Number.text x))
  | value => .error (.invalidIndex value.display)

/-- The key of a dict that an index names; a position is its decimal text. -/
def toKey : Index → String
  | .position n => toString n
  | .key name => name

end Index

/-- The index of a step that the walk has reached. -/
def Step.resolve : Step → OnStack Index
  | .index known => pure known
  | .top => do
    match Index.ofValue (← Stack.pop) with
    | .ok found => pure found
    | .error fault => throw fault

/-- The step of a written segment. -/
def Segment.resolve (bindings : List (String × Value)) : Segment → Except Fault Step
  | .position digits =>
    match Number.readWord? digits with
    | some n => .ok (.index (.position n))
    | none => .error (.positionOutOfRange digits)
  | .reference name =>
    match Entries.find? name bindings with
    | some value => (Index.ofValue value).map .index
    | none => .error (.unboundIndex name)
  | .key name => .ok (.index (.key name))
  | .top => .ok .top

/-- The steps of a path; the first segment that fails decides. -/
def Path.steps (bindings : List (String × Value)) (path : Path) : Except Fault (List Step) :=
  path.segments.mapM (Segment.resolve bindings)

end StackScript
