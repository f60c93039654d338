/-
# StackScript.Json.Reader — reading a tree, one character at a time

The reader is a machine with a stack. Its state holds what it is in the middle
of (`Mode`) and the containers still open (`Frame`), and `step` takes one
character or refuses it. `readBy?` runs it over a text; running it over a text in
two pieces is running it over the first and then over the second, which is what
statements about texts put together need. `readBy` also tells where a text that is
refused goes wrong.

The grammar is strict: blanks are space, tab, line feed and carriage return;
numbers have no leading zero and no bare point; strings hold no raw control
character and no half of a surrogate pair. At most 127 containers may be open at
once. Of two entries under one key the later value stands at the earlier place.

An integer that fits 64 bits stays one. How any other number becomes a double is
a parameter (`Rounding`), since nothing else that the reader does depends on it.
`read` is exact: it takes the nearest double, and refuses a number too large for
one. A decoder that only comes near to the nearest double is a `readBy` with
another rounding; it takes the same texts but for numbers at the upper end.
-/
import StackScript.Json.Basic

namespace StackScript.Json.Reader

set_option autoImplicit false

/-- The most containers that may be open at once. -/
def maxNesting : Nat := 127

/-- A container still open, its parts newest first. -/
inductive Frame where
  | array (items : List Json)
  | object (entries : List (String × Json))
  /-- An object whose next value goes under `key`. -/
  | entry (key : String) (entries : List (String × Json))

/-- Progress inside an escape of a string. -/
inductive Escape where
  | none
  /-- After a backslash. -/
  | start
  /-- Inside the hexadecimal digits of `\u`; `count` of them gave `value`. -/
  | hex (count value : Nat)
  /-- After a high surrogate, which a backslash must follow. -/
  | lowStart (high : Nat)
  /-- After that backslash, which a `u` must follow. -/
  | lowMark (high : Nat)
  /-- Inside the digits of the low surrogate. -/
  | lowHex (high count value : Nat)

/-- What the reader is in the middle of. -/
inductive Mode where
  /-- A value must come; `closable` right after an opening bracket. -/
  | value (closable : Bool)
  /-- A key must come; `closable` right after an opening brace. -/
  | key (closable : Bool)
  | colon
  /-- A value inside a container has ended. -/
  | ended
  /-- The outermost value has ended. -/
  | done (result : Json)
  /-- The rest of `true`, `false` or `null`. -/
  | word (rest : List Char) (result : Json)
  /-- The characters of a number, newest first. -/
  | number (chars : List Char)
  /-- The characters of a string, newest first. -/
  | string (chars : List Char) (escape : Escape)

structure State where
  mode : Mode
  frames : List Frame

def initial : State :=
  { mode := .value false, frames := [] }

def isBlank (c : Char) : Bool :=
  c == ' ' || c == '\t' || c == '\n' || c == '\r'

/-- A character that a number may hold. -/
def isNumeric (c : Char) : Bool :=
  c.isDigit || c == '-' || c == '+' || c == '.' || c == 'e' || c == 'E'

def hexValue? (c : Char) : Option Nat :=
  if c.isDigit then some (c.toNat - '0'.toNat)
  else if 'a' ≤ c ∧ c ≤ 'f' then some (c.toNat - 'a'.toNat + 10)
  else if 'A' ≤ c ∧ c ≤ 'F' then some (c.toNat - 'A'.toNat + 10)
  else none

/-- Puts a value under a key: in place of an earlier one, or as the newest. -/
def putEntry (key : String) (value : Json) (entries : List (String × Json)) :
    List (String × Json) :=
  if entries.any (fun entry => entry.1 == key) then
    entries.map fun entry => if entry.1 == key then (key, value) else entry
  else (key, value) :: entries

/-- How a numeral that is no integer of 64 bits becomes a double; none where it is refused. -/
abbrev Rounding := Number.Numeral → Option Float

/-- The value of a number's characters, which come newest first. -/
def numberValue? (round : Rounding) (chars : List Char) : Option Json :=
  match Number.Numeral.ofChars? chars.reverse with
  | none => none
  | some numeral =>
    let digits := Nat.ofDigitChars 10 numeral.whole 0
    if numeral.isInteger && !numeral.negative && decide (digits < Number.wordBound) then
      some (.integer digits)
    else if numeral.isInteger && numeral.negative && digits != 0 &&
        decide (2 * digits ≤ Number.wordBound) then
      some (.integer (-(digits : Int)))
    else
      match round numeral with
      | none => none
      | some x => if finite : Number.isFinite x = true then some (.float x finite) else none

/-- A finished value goes to the innermost open container. -/
def deliver (value : Json) : List Frame → Option State
  | [] => some { mode := .done value, frames := [] }
  | .array items :: frames => some { mode := .ended, frames := .array (value :: items) :: frames }
  | .entry key entries :: frames =>
    some { mode := .ended, frames := .object (putEntry key value entries) :: frames }
  | .object _ :: _ => none

/-- A container opens, if another may. -/
def openFrame (frame : Frame) (mode : Mode) (frames : List Frame) : Option State :=
  if frames.length < maxNesting then some { mode, frames := frame :: frames } else none

/-- A bracket closes the innermost container, which must be an array. -/
def closeArray : List Frame → Option State
  | .array items :: frames => deliver (.array items.reverse) frames
  | _ => none

/-- A brace closes the innermost container, which must be an object. -/
def closeObject : List Frame → Option State
  | .object entries :: frames => deliver (.object entries.reverse) frames
  | _ => none

/-- The first character of a value. -/
def stepValue (closable : Bool) (frames : List Frame) (c : Char) : Option State :=
  if isBlank c then some { mode := .value closable, frames }
  else if c = '[' then openFrame (.array []) (.value true) frames
  else if c = '{' then openFrame (.object []) (.key true) frames
  else if c = ']' then if closable then closeArray frames else none
  else if c = '"' then some { mode := .string [] .none, frames }
  else if c = 't' then some { mode := .word ['r', 'u', 'e'] (.bool true), frames }
  else if c = 'f' then some { mode := .word ['a', 'l', 's', 'e'] (.bool false), frames }
  else if c = 'n' then some { mode := .word ['u', 'l', 'l'] .null, frames }
  else if c = '-' || c.isDigit then some { mode := .number [c], frames }
  else none

def stepKey (closable : Bool) (frames : List Frame) (c : Char) : Option State :=
  if isBlank c then some { mode := .key closable, frames }
  else if c = '"' then some { mode := .string [] .none, frames }
  else if c = '}' then if closable then closeObject frames else none
  else none

def stepColon (frames : List Frame) (c : Char) : Option State :=
  if isBlank c then some { mode := .colon, frames }
  else if c = ':' then some { mode := .value false, frames }
  else none

/-- After a value inside a container: a comma, or the container's end. -/
def stepEnded (frames : List Frame) (c : Char) : Option State :=
  if isBlank c then some { mode := .ended, frames }
  else if c = ',' then
    match frames with
    | .array _ :: _ => some { mode := .value false, frames }
    | .object _ :: _ => some { mode := .key false, frames }
    | _ => none
  else if c = ']' then closeArray frames
  else if c = '}' then closeObject frames
  else none

def stepDone (result : Json) (frames : List Frame) (c : Char) : Option State :=
  if isBlank c then some { mode := .done result, frames } else none

/-- The character that ends a number belongs to what follows it. -/
def stepNumber (round : Rounding) (chars : List Char) (frames : List Frame) (c : Char) :
    Option State :=
  if isNumeric c then some { mode := .number (c :: chars), frames }
  else
    match numberValue? round chars with
    | none => none
    | some value =>
      match deliver value frames with
      | some { mode := .done result, frames } => stepDone result frames c
      | some { mode := .ended, frames } => stepEnded frames c
      | _ => none

def stepWord (rest : List Char) (result : Json) (frames : List Frame) (c : Char) : Option State :=
  match rest with
  | [] => none
  | [last] => if c = last then deliver result frames else none
  | next :: others => if c = next then some { mode := .word others result, frames } else none

/-! ## Strings -/

/-- A finished string is a key where the innermost container waits for one. -/
def endString (text : String) : List Frame → Option State
  | .object entries :: frames => some { mode := .colon, frames := .entry text entries :: frames }
  | frames => deliver (.string text) frames

/-- The character that an escape of two characters writes. -/
def simpleEscape? (c : Char) : Option Char :=
  if c = '"' || c = '\\' || c = '/' then some c
  else if c = 'b' then some '\x08'
  else if c = 'f' then some '\x0c'
  else if c = 'n' then some '\x0a'
  else if c = 'r' then some '\x0d'
  else if c = 't' then some '\x09'
  else none

def isHighSurrogate (n : Nat) : Bool :=
  decide (0xD800 ≤ n ∧ n ≤ 0xDBFF)

def isLowSurrogate (n : Nat) : Bool :=
  decide (0xDC00 ≤ n ∧ n ≤ 0xDFFF)

/-- The state inside a string. -/
def inString (chars : List Char) (escape : Escape) (frames : List Frame) : State :=
  { mode := .string chars escape, frames }

def stepString (chars : List Char) (escape : Escape) (frames : List Frame) (c : Char) :
    Option State :=
  match escape with
  | .none =>
    if c = '"' then endString (String.ofList chars.reverse) frames
    else if c = '\\' then some (inString chars .start frames)
    else if c.toNat < 0x20 then none
    else some (inString (c :: chars) .none frames)
  | .start =>
    if c = 'u' then some (inString chars (.hex 0 0) frames)
    else
      match simpleEscape? c with
      | some written => some (inString (written :: chars) .none frames)
      | none => none
  | .hex count value =>
    match hexValue? c with
    | none => none
    | some digit =>
      let unit := 16 * value + digit
      if count < 3 then some (inString chars (.hex (count + 1) unit) frames)
      else if isHighSurrogate unit then some (inString chars (.lowStart unit) frames)
      else if isLowSurrogate unit then none
      else some (inString (Char.ofNat unit :: chars) .none frames)
  | .lowStart high => if c = '\\' then some (inString chars (.lowMark high) frames) else none
  | .lowMark high => if c = 'u' then some (inString chars (.lowHex high 0 0) frames) else none
  | .lowHex high count value =>
    match hexValue? c with
    | none => none
    | some digit =>
      let unit := 16 * value + digit
      if count < 3 then some (inString chars (.lowHex high (count + 1) unit) frames)
      else if isLowSurrogate unit then
        let point := 0x10000 + (high - 0xD800) * 0x400 + (unit - 0xDC00)
        some (inString (Char.ofNat point :: chars) .none frames)
      else none

/-! ## The whole text -/

/-- One character. -/
def step (round : Rounding) (state : State) (c : Char) : Option State :=
  match state.mode with
  | .value closable => stepValue closable state.frames c
  | .key closable => stepKey closable state.frames c
  | .colon => stepColon state.frames c
  | .ended => stepEnded state.frames c
  | .done result => stepDone result state.frames c
  | .word rest result => stepWord rest result state.frames c
  | .number chars => stepNumber round chars state.frames c
  | .string chars escape => stepString chars escape state.frames c

/-- Characters in a row, until one is refused. -/
def run (round : Rounding) (state : State) (chars : List Char) : Option State :=
  chars.foldlM (step round) state

/-- The tree that stands complete at the end of a text. -/
def finish (round : Rounding) (state : State) : Option Json :=
  match state.mode with
  | .done result => some result
  | .number chars => if state.frames.isEmpty then numberValue? round chars else none
  | _ => none

/-! ## Problems -/

/-- Why a character was refused. -/
def reason (state : State) (c : Char) : Reason :=
  match state.mode with
  | .string _ .none => if c.toNat < 0x20 then .controlCharacter else .unexpectedCharacter
  | _ => .unexpectedCharacter

/-- The problem of a text that is refused, from a state and a place on. -/
def locate (round : Rounding) (state : State) (place : Place) : List Char → Problem
  | [] => { reason := .unexpectedEnd, place }
  | c :: rest =>
    match step round state c with
    | some next => locate round next (place.advance c) rest
    | none => { reason := reason state c, place := place.advance c }

end StackScript.Json.Reader

namespace StackScript.Json

/-- The tree of a text that holds one tree and nothing else, by a way of rounding. -/
def readBy? (round : Reader.Rounding) (text : String) : Option Json :=
  match Reader.run round Reader.initial text.toList with
  | some state => Reader.finish round state
  | none => none

def readBy (round : Reader.Rounding) (text : String) : Except Problem Json :=
  match readBy? round text with
  | some tree => .ok tree
  | none => .error (Reader.locate round Reader.initial {} text.toList)

/-- Reads a text that holds one tree and nothing else. -/
def read (text : String) : Except Problem Json :=
  readBy Number.Numeral.toFloat? text

end StackScript.Json
