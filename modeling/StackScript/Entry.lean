/-
# StackScript.Entry — input, line by line, and the entries typed in it

Input is read in lines. A line keeps its line feed; the last one may lack it. A
line whose bytes are not UTF-8 cannot be read, but the lines after it can.

Someone who types a program may spread it over several lines. An entry goes on
as long as more brackets have opened than closed; brackets inside strings do not
count. A string cannot go over the end of a line, so a line that ends inside one
completes the entry, and reading it as a program will fail.
-/

namespace StackScript

set_option autoImplicit false

inductive Line where
  | text (content : String)
  /-- A line whose bytes are not UTF-8. -/
  | unreadable
deriving DecidableEq

abbrev Input := List Line

namespace Input

/-- Cuts a list after every occurrence of a separator. `piece` is the piece so
far and `pieces` the pieces before it, both newest first. -/
def cutAfter {α : Type} [DecidableEq α] (separator : α) (piece : List α)
    (pieces : List (List α)) : List α → List (List α)
  | [] => (if piece.isEmpty then pieces else piece.reverse :: pieces).reverse
  | a :: rest =>
    if a = separator then cutAfter separator [] ((a :: piece).reverse :: pieces) rest
    else cutAfter separator (a :: piece) pieces rest

/-- The lines of a text. -/
def ofText (text : String) : Input :=
  (cutAfter '\n' [] [] text.toList).map fun line => .text (String.ofList line)

/-- The lines of bytes. -/
def ofBytes (bytes : List UInt8) : Input :=
  (cutAfter 10 [] [] bytes).map fun line =>
    match String.fromUTF8? (ByteArray.mk line.toArray) with
    | some content => .text content
    | none => .unreadable

end Input

/-! ## Entries -/

/-- The bracket balance of what has been typed. -/
structure Scanner where
  /-- The brackets that are open, counted in 32 bits; the count wraps around. -/
  depth : Int32 := 0
  inString : Bool := false
  escaped : Bool := false
deriving DecidableEq

namespace Scanner

/-- One character. -/
def step (scanner : Scanner) (c : Char) : Scanner :=
  if scanner.inString then
    if scanner.escaped then { scanner with escaped := false }
    else if c = '\\' then { scanner with escaped := true }
    else if c = '"' then { scanner with inString := false }
    else scanner
  else if c = '"' then { scanner with inString := true }
  else if c = '{' ∨ c = '[' then { scanner with depth := scanner.depth + 1 }
  else if c = '}' ∨ c = ']' then { scanner with depth := scanner.depth - 1 }
  else scanner

def feed (scanner : Scanner) (line : String) : Scanner :=
  line.toList.foldl step scanner

def isComplete (scanner : Scanner) : Bool :=
  decide (scanner.depth ≤ 0) || scanner.inString

end Scanner

/-- What reading an entry came to. -/
structure EntryReading where
  /-- The entry; none at the end of input and at an unreadable line. -/
  entry : Option String
  /-- How often another line was asked for. -/
  continued : Nat
  /-- Whether the input ended before the entry did. -/
  starved : Bool := false
  rest : Input

/-- Reads on, after the lines `typed`. -/
def EntryReading.goOn (scanner : Scanner) (typed : String) (continued : Nat) :
    Input → EntryReading
  | [] =>
    { entry := if typed.isEmpty then none else some typed, continued, starved := true, rest := [] }
  | .unreadable :: rest => { entry := none, continued, rest }
  | .text line :: rest =>
    let scanner := scanner.feed line
    let typed := typed ++ line
    if scanner.isComplete then { entry := some typed, continued, rest }
    else goOn scanner typed (continued + 1) rest

/-- Reads one entry. -/
def readEntry (input : Input) : EntryReading :=
  .goOn {} "" 0 input

/-- All entries of an input, each with how often it was continued, and how often
the reading that found none was. -/
def readEntries (input : Input) : List (String × Nat) × Nat :=
  go input.length [] input
where
  /-- Every entry takes a line at least, so there are at most as many as lines. -/
  go : Nat → List (String × Nat) → Input → List (String × Nat) × Nat
  | lines, found, input =>
    match readEntry input, lines with
    | { entry := some entry, continued, rest, .. }, lines + 1 =>
      go lines ((entry, continued) :: found) rest
    | { continued, .. }, _ => (found.reverse, continued)

end StackScript
