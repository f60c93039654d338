/-
# StackScript.Json.Writer — the compact text of a tree

`Json.text` writes a tree without blanks. Inside strings only the quote, the
backslash and the characters below U+0020 are escaped. `Json.render` is the form
used in messages and listings, where a string stands bare.
-/
import StackScript.Json.Basic

namespace StackScript.Json

set_option autoImplicit false

/-- A hexadecimal digit in lower case. -/
def hexDigit (n : Nat) : Char :=
  if n < 10 then Char.ofNat ('0'.toNat + n) else Char.ofNat ('a'.toNat + (n - 10))

/-- How a character is written inside a string. -/
def escape (c : Char) : List Char :=
  if c = '"' then ['\\', '"']
  else if c = '\\' then ['\\', '\\']
  else if c = '\x08' then ['\\', 'b']
  else if c = '\x09' then ['\\', 't']
  else if c = '\x0a' then ['\\', 'n']
  else if c = '\x0c' then ['\\', 'f']
  else if c = '\x0d' then ['\\', 'r']
  else if c.toNat < 0x20 then
    ['\\', 'u', '0', '0', hexDigit (c.toNat / 16), hexDigit (c.toNat % 16)]
  else [c]

/-- A string with its quotes. -/
def quote (text : String) : String :=
  String.ofList ('"' :: (text.toList.flatMap escape ++ ['"']))

mutual

/-- Appends the text of a tree to what has been written. -/
def writeOnto (out : String) : Json → String
  | .null => out ++ "null"
  | .bool value => out ++ (if value then "true" else "false")
  | .integer value => out ++ toString value
  | .float value _ => out ++ Number.Layout.json.text value
  | .string value => out ++ quote value
  | .array [] => out ++ "[]"
  | .array (item :: items) => writeItems (item.writeOnto (out.push '[')) items
  | .object [] => out ++ "\x7b\x7d"
  | .object ((key, value) :: entries) =>
    writeEntries (value.writeOnto (out.push '{' ++ quote key ++ ":")) entries

/-- The items after the first, and the closing bracket. -/
def writeItems (out : String) : List Json → String
  | [] => out.push ']'
  | item :: items => writeItems (item.writeOnto (out.push ',')) items

/-- The entries after the first, and the closing brace. -/
def writeEntries (out : String) : List (String × Json) → String
  | [] => out.push '}'
  | (key, value) :: entries =>
    writeEntries (value.writeOnto (out.push ',' ++ quote key ++ ":")) entries

end

/-- The compact text of a tree. -/
def text (tree : Json) : String :=
  tree.writeOnto ""

/-- The text of a tree in messages: a string without quotes, anything else compact. -/
def render : Json → String
  | .string value => value
  | tree => tree.text

end StackScript.Json
