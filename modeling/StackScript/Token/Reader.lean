/-
# StackScript.Token.Reader — reading tokens

`Token.read` reads the text of a token. The readings are tried in turn: push,
pop, method call, operator, call, control word; the operator `-` is also a name,
and the operator wins. What is none of them is malformed.
-/
import StackScript.Fault
import StackScript.Token.Basic

namespace StackScript

set_option autoImplicit false

/-- What follows a leading character, if the text starts with it. -/
def dropLead? (lead : Char) : List Char → Option (List Char)
  | [] => none
  | c :: cs => if c = lead then some cs else none

def Segment.ofChars? (cs : List Char) : Option Segment :=
  if cs = ['&', '0'] then some .top
  else if !cs.isEmpty && cs.all Char.isDigit then some (.position (String.ofList cs))
  else
    match dropLead? '$' cs with
    | some name => if isNameChars name then some (.reference (String.ofList name)) else none
    | none => if isNameChars cs then some (.key (String.ofList cs)) else none

/-- A name and dotted segments. -/
def Path.ofChars? (cs : List Char) : Option Path :=
  match cs.splitOn '.' with
  | [] => none
  | name :: parts =>
    if isNameChars name then
      match parts.mapM Segment.ofChars? with
      | some segments => some { name := String.ofList name, segments }
      | none => none
    else none

/-- The path of a push `$path`. -/
def Path.ofPush? (text : String) : Option Path :=
  match dropLead? '$' text.toList with
  | some cs => Path.ofChars? cs
  | none => none

/-- The path of a pop `&path`. -/
def Path.ofPop? (text : String) : Option Path :=
  match dropLead? '&' text.toList with
  | some cs => Path.ofChars? cs
  | none => none

/-- The path of a method call `:$path`, which may still lack a segment. -/
def Path.ofMethod? (text : String) : Option Path :=
  match dropLead? ':' text.toList with
  | some cs =>
    match dropLead? '$' cs with
    | some cs => Path.ofChars? cs
    | none => none
  | none => none

/-- A control word behind `#` or `~`. -/
def Control.ofMarked? (text : String) : Option Control :=
  match text.toList with
  | c :: cs => if c = '#' ∨ c = '~' then Control.ofWord? (String.ofList cs) else none
  | [] => none

def Token.read (text : String) : Except Fault Token :=
  match Path.ofPush? text with
  | some path => .ok (.push path)
  | none =>
    match Path.ofPop? text with
    | some path => .ok (.pop path)
    | none =>
      match Path.ofMethod? text with
      | some path => if path.isBare then .error .bareMethod else .ok (.method path)
      | none =>
        match Control.ofSign? text with
        | some op => .ok (.control op)
        | none =>
          if isName text then .ok (.call text)
          else
            match Control.ofMarked? text with
            | some op => .ok (.control op)
            | none => .error .malformedInstruction

end StackScript
