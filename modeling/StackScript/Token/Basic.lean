/-
# StackScript.Token.Basic — names, paths and tokens

A token is a string instruction of a program. Five kinds exist: a push `$path`,
a pop `&path`, a method call `:$path`, a call by name, and a control. A path is a
variable name and the dotted segments after it. `Token.text` writes a token; the
controls that have two spellings are written with `#`.
-/

namespace StackScript

set_option autoImplicit false

/-- A name is made of lower case letters and hyphens, and is not empty. -/
def isNameChar (c : Char) : Bool :=
  decide ('a' ≤ c ∧ c ≤ 'z') || c == '-'

def isNameChars (cs : List Char) : Bool :=
  !cs.isEmpty && cs.all isNameChar

def isName (text : String) : Bool :=
  isNameChars text.toList

/-- One step of a path. -/
inductive Segment where
  /-- Decimal digits, kept as written: a position. -/
  | position (digits : String)
  /-- `$name`: the index that a variable holds. -/
  | reference (name : String)
  /-- A bare name: a dict key. -/
  | key (name : String)
  /-- `&0`: the index on top of the stack. -/
  | top
deriving DecidableEq

/-- A variable and the slot inside it. -/
structure Path where
  name : String
  segments : List Segment
deriving DecidableEq

inductive Control where
  | nop
  /-- Ends the running program. -/
  | leave
  /-- Ends the session. -/
  | exit
  | flush
  | put
  | clear
  | add
  | subtract
  /-- Accepted, without an effect. -/
  | multiply
  /-- Accepted, without an effect. -/
  | divide
deriving DecidableEq

inductive Token where
  | push (path : Path)
  | pop (path : Path)
  | method (path : Path)
  | call (name : String)
  | control (op : Control)
deriving DecidableEq

def Segment.text : Segment → String
  | .position digits => digits
  | .reference name => "$" ++ name
  | .key name => name
  | .top => "&0"

def Path.isBare (path : Path) : Bool :=
  path.segments.isEmpty

def Path.text (path : Path) : String :=
  path.segments.foldl (fun out segment => out ++ "." ++ segment.text) path.name

namespace Control

/-- The controls written as a word behind `#` or `~`. -/
def word? : Control → Option String
  | .nop => some "nop"
  | .leave => some "return"
  | .exit => some "exit"
  | .flush => some "flush"
  | .put => some "put"
  | .clear => some "clear"
  | .add | .subtract | .multiply | .divide => none

/-- The sign of an operator. -/
def sign : Control → String
  | .add => "+"
  | .subtract => "-"
  | .multiply => "*"
  | .divide => "/"
  | _ => ""

def text (op : Control) : String :=
  match op.word? with
  | some word => "#" ++ word
  | none => op.sign

def ofWord? : String → Option Control
  | "nop" => some .nop
  | "return" => some .leave
  | "exit" => some .exit
  | "flush" => some .flush
  | "put" => some .put
  | "clear" => some .clear
  | _ => none

def ofSign? : String → Option Control
  | "+" => some .add
  | "-" => some .subtract
  | "*" => some .multiply
  | "/" => some .divide
  | _ => none

end Control

namespace Token

def text : Token → String
  | .push path => "$" ++ path.text
  | .pop path => "&" ++ path.text
  | .method path => ":$" ++ path.text
  | .call name => name
  | .control op => op.text

/-- The kind of a token, as listings show it. -/
def label : Token → String
  | .push _ => "push"
  | .pop _ => "pop"
  | .method _ => "class"
  | .call _ => "call"
  | .control _ => "control"

end Token

end StackScript
