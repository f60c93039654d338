/-
# StackScript.Value.Basic — values, functions and instructions

A value is what the stack, the variables and the containers hold. A function is
a program or a native of the host, known by its name. A program is a list of
instructions, and an instruction may hold a value, so the three are one family.

`Value.same` is equality as programs see it. Numbers compare as IEEE numbers, so
a value with a NaN inside differs from itself; literals compare as JSON, and
natives by name.

Dicts, variables and function tables are lists of keyed entries in ascending
order of their keys. Strings are compared by code point, which is also the order
of their UTF-8 bytes. Looking up takes the first entry under a key; `Entries.insert`
replaces it or makes a new one at its place in the order, and `Entries.replace`
writes into one that is there.
-/
import StackScript.Fault
import StackScript.Json.Basic
import StackScript.Token.Basic

namespace StackScript

set_option autoImplicit false

mutual

inductive Value where
  | null
  | boolean (value : Bool)
  | number (value : Float)
  | text (value : String)
  | array (items : List Value)
  /-- Entries in ascending order of their keys. -/
  | dict (entries : List (String × Value))
  | function (body : Body)

/-- What runs when a function is called. -/
inductive Body where
  | native (name : String)
  | program (instructions : List Instruction)

inductive Instruction where
  /-- Pushes the value. -/
  | value (held : Value)
  /-- Constructs a value from the literal and pushes it. -/
  | literal (tree : Json)
  /-- A token; `text` is the token as written. -/
  | token (text : String) (read : Token)
  /-- Fails when it is reached, with an empty trail. Only the fault is kept: no literal is read
  as an instruction whose failure has been through a call. -/
  | invalid (tree : Json) (fault : Fault)

end

abbrev Program := List Instruction

namespace Value

def type : Value → ValueType
  | .null => .null
  | .boolean _ => .boolean
  | .number _ => .number
  | .text _ => .text
  | .array _ => .array
  | .dict _ => .dict
  | .function _ => .function

/-- Whether the value has slots. -/
def isContainer : Value → Bool
  | .array _ | .dict _ => true
  | _ => false

end Value

/-! ## Equality -/

mutual

def Value.same : Value → Value → Bool
  | .null, .null => true
  | .boolean a, .boolean b => a == b
  | .number a, .number b => a == b
  | .text a, .text b => a == b
  | .array as, .array bs => Value.sameItems as bs
  | .dict as, .dict bs => Value.sameEntries as bs
  | .function a, .function b => a.same b
  | _, _ => false

def Value.sameItems : List Value → List Value → Bool
  | [], [] => true
  | a :: as, b :: bs => a.same b && Value.sameItems as bs
  | _, _ => false

def Value.sameEntries : List (String × Value) → List (String × Value) → Bool
  | [], [] => true
  | (k, a) :: as, (l, b) :: bs => k == l && a.same b && Value.sameEntries as bs
  | _, _ => false

def Body.same : Body → Body → Bool
  | .native a, .native b => a == b
  | .program as, .program bs => Instruction.sameAll as bs
  | _, _ => false

def Instruction.same : Instruction → Instruction → Bool
  | .value a, .value b => a.same b
  | .literal a, .literal b => a.same b
  | .token s a, .token t b => s == t && a == b
  | .invalid a f, .invalid b g => a.same b && f == g
  | _, _ => false

def Instruction.sameAll : List Instruction → List Instruction → Bool
  | [], [] => true
  | a :: as, b :: bs => a.same b && Instruction.sameAll as bs
  | _, _ => false

end

instance : BEq Value := ⟨Value.same⟩
instance : BEq Body := ⟨Body.same⟩
instance : BEq Instruction := ⟨Instruction.same⟩

/-! ## Keyed entries -/

namespace Entries

variable {α : Type}

/-- The value under a key. -/
def find? (key : String) : List (String × α) → Option α
  | [] => none
  | (k, value) :: rest => if k = key then some value else find? key rest

/-- Puts a value under a key, at the key's place in the order. -/
def insert (key : String) (value : α) : List (String × α) → List (String × α)
  | [] => [(key, value)]
  | (k, old) :: rest =>
    if k = key then (key, value) :: rest
    else if key < k then (key, value) :: (k, old) :: rest
    else (k, old) :: insert key value rest

/-- Puts another value under a key that is there, in place of the one it has. -/
def replace (key : String) (value : α) : List (String × α) → List (String × α)
  | [] => []
  | (k, old) :: rest =>
    if k = key then (key, value) :: rest else (k, old) :: replace key value rest

/-- The entries of a list, each under its last value. -/
def ofList (pairs : List (String × α)) : List (String × α) :=
  pairs.foldl (fun entries pair => insert pair.1 pair.2 entries) []

end Entries

end StackScript
