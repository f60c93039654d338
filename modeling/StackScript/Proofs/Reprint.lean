/-
# StackScript.Proofs.Reprint — printing a program and parsing it again

A program prints each instruction as the literal it was read from, with one liberty:
numbers are printed in the language's own form, so `1.0` comes out as `1` and `-0` as
`0`, while a literal that is kept for later keeps its numbers. `Json.reprinted` is what
becomes of a literal that way.

It stays readable: nothing is nested deeper than before, and every number it writes is
an integer of 64 bits or a finite double (`Json.Readable.reprinted`). It is a normal
form, which printing leaves as it is (`Json.reprinted_reprinted`). With the reader of
trees this makes `Program.parse_text`.

The result rests on exact reading: `Json.read` takes the double nearest to a numeral, so
every double that is printed is read back bit for bit (`toFloat?_readsBack`). A decoder
that may miss the nearest double of a long numeral needs as much of the texts that are
printed (`Rounding.ReadsBack`).
-/
import StackScript.Proofs.Rebuild
import StackScript.Proofs.Writer

namespace StackScript

set_option autoImplicit false

/-! ## Numbers -/

namespace Number

/-- Equal numbers are printed as the same integer. -/
theorem printedInteger?_congr {x y : Float} (equal : (x == y) = true) :
    printedInteger? x = printedInteger? y := by
  have same : integer? x = integer? y := by
    have parted := beq_iff.mp equal
    unfold integer?
    cases left : parts x with
    | nan => simp [left, Parts.Equal] at parted
    | infinite s =>
      cases right : parts y with
      | infinite t => rfl
      | _ => simp [left, right, Parts.Equal] at parted
    | finite s m e =>
      cases right : parts y with
      | finite t n f =>
        rw [left, right] at parted
        rcases parted with ⟨rfl, rfl⟩ | ⟨rfl, rfl, rfl⟩
        · simp [inUnits]
        · rfl
      | _ => simp [left, right, Parts.Equal] at parted
  rw [printedInteger?, printedInteger?, same]

end Number

/-! ## Literals -/

namespace Json

/-- What a program prints for a literal that it was read from. -/
def reprinted (tree : Json) : Json :=
  (Instruction.ofLiteral tree).toLiteral

theorem reprinted_integer (n : Int) : reprinted (.integer n) = .ofNumber (Number.ofInt n) := by
  simp [reprinted, Instruction.toLiteral, Value.toLiteral]

theorem reprinted_float (x : Float) (finite : Number.isFinite x = true) :
    reprinted (.float x finite) = .ofNumber x := by
  simp [reprinted, Instruction.toLiteral, Value.toLiteral]

theorem reprinted_null : reprinted .null = .null := by
  simp [reprinted, Instruction.toLiteral]

theorem reprinted_bool (b : Bool) : reprinted (.bool b) = .bool b := by
  simp [reprinted, Instruction.toLiteral, Value.toLiteral]

theorem reprinted_string (text : String) : reprinted (.string text) = .string text := by
  rw [reprinted, Instruction.ofLiteral_string, Instruction.ofToken_toLiteral]

/-- Objects are kept for later, or fail, but are never changed. -/
theorem reprinted_object (entries : List (String × Json)) :
    reprinted (.object entries) = .object entries := by
  unfold reprinted
  rw [Instruction.ofLiteral_object]
  split_ifs <;> simp [Instruction.unknown, Instruction.toLiteral]

theorem reprinted_array (items : List Json) :
    reprinted (.array items) = .array (items.map reprinted) := by
  by_cases isText : ∃ text, items = [.string text]
  · obtain ⟨text, rfl⟩ := isText
    rw [List.map_singleton, reprinted_string]
    simp [reprinted, Instruction.toLiteral]
  · have notText : ∀ text, items ≠ [.string text] := fun text same => isText ⟨text, same⟩
    rw [reprinted, Instruction.ofLiteral_program notText, Instruction.toLiteral, Value.toLiteral,
      Body.program_toLiteral, Program.ofItems_eq, List.map_map]
    rfl

/-- A number is printed as a literal that is printed as it is. -/
theorem reprinted_ofNumber (x : Float) : reprinted (.ofNumber x) = .ofNumber x := by
  cases printed : Number.printedInteger? x with
  | some n =>
    have again : Number.printedInteger? (Number.ofInt n) = some n := by
      obtain ⟨found, _⟩ := Number.printedInteger?_spec printed
      rw [Number.printedInteger?_congr (Number.ofInt_beq found), printed]
    simp only [ofNumber, printed]
    rw [reprinted_integer]
    simp only [ofNumber, again]
  | none =>
    by_cases finite : Number.isFinite x = true
    · have float : Json.ofNumber x = .float x finite := by simp [ofNumber, printed, finite]
      rw [float, reprinted_float, float]
    · have null : Json.ofNumber x = .null := by simp [ofNumber, printed, finite]
      rw [null, reprinted_null]

theorem reprinted_reprinted (tree : Json) : tree.reprinted.reprinted = tree.reprinted := by
  induction tree using Json.induction with
  | null => rw [reprinted_null, reprinted_null]
  | bool b => rw [reprinted_bool, reprinted_bool]
  | integer n => rw [reprinted_integer, reprinted_ofNumber]
  | float x finite => rw [reprinted_float, reprinted_ofNumber]
  | string text => rw [reprinted_string, reprinted_string]
  | array items ih =>
    rw [reprinted_array, reprinted_array, List.map_map]
    exact congrArg Json.array (List.map_congr_left ih)
  | object entries ih => rw [reprinted_object, reprinted_object]

theorem ofNumber_readable {x : Float} (finite : Number.isFinite x = true) (room : Nat) :
    (Json.ofNumber x).Readable room := by
  cases printed : Number.printedInteger? x with
  | some n =>
    obtain ⟨_, small⟩ := Number.printedInteger?_spec printed
    have bound : 2 * Number.printedBound ≤ Number.wordBound := by decide
    simp only [ofNumber, printed]
    exact .integer (by omega) (by omega)
  | none =>
    simp only [ofNumber, printed, finite, dif_pos]
    exact .float

theorem Readable.reprinted {room : Nat} {tree : Json} (readable : tree.Readable room) :
    tree.reprinted.Readable room := by
  induction readable with
  | null =>
    rw [reprinted_null]
    exact .null
  | bool =>
    rw [reprinted_bool]
    exact .bool
  | integer least most =>
    rw [reprinted_integer]
    exact ofNumber_readable (Number.ofInt_finite least most) _
  | @float _ x finite =>
    rw [reprinted_float]
    exact ofNumber_readable finite _
  | string =>
    rw [reprinted_string]
    exact .string
  | array each ih =>
    rw [reprinted_array]
    refine .array fun printed member => ?_
    obtain ⟨item, within, rfl⟩ := List.mem_map.mp member
    exact ih item within
  | object distinct each ih =>
    rw [reprinted_object]
    exact .object distinct each

/-- What is printed of a readable literal is read as an equal instruction. -/
theorem Readable.reread {room : Nat} {tree : Json} (readable : tree.Readable room) :
    (Instruction.ofLiteral tree.reprinted).same (Instruction.ofLiteral tree) = true := by
  refine Instruction.reread_same_of (fun tree => ∃ room, tree.Readable room) ?_ ?_ ⟨room, readable⟩
  · rintro n ⟨_, readable⟩
    cases readable with
    | integer least most => exact Number.ofInt_finite least most
  · rintro items _ ⟨_, readable⟩ item member
    cases readable with
    | array each => exact ⟨_, each item member⟩

end Json

/-! ## Programs -/

namespace Program

theorem ofItems_toLiteral (items : List Json) :
    Program.toLiteral (ofItems items) = (Json.array items).reprinted := by
  rw [Program.toLiteral, Body.program_toLiteral, ofItems_eq, List.map_map, Json.reprinted_array]
  rfl

/-- A program comes from an array. -/
theorem items_of_parse {source : String} {program : Program} (parsed : parse source = .ok program) :
    ∃ items, Json.read source = .ok (.array items) ∧ program = ofItems items := by
  unfold parse at parsed
  split at parsed
  · rename_i literal read
    cases literal with
    | array items =>
      cases parsed
      exact ⟨items, read, rfl⟩
    | _ => cases parsed
  · cases parsed

/-- **Printing a program and parsing it again is the identity.** The text of a program
that was parsed is parsed as a program of equal instructions, and printed as the same
text. -/
theorem parse_text {source : String} {program : Program} (parsed : parse source = .ok program) :
    ∃ again, parse (Program.text program) = .ok again ∧ Instruction.sameAll again program = true ∧
      Program.text again = Program.text program := by
  obtain ⟨items, read, rfl⟩ := items_of_parse parsed
  have readable := Json.readable_of_readBy read
  have back : Json.read (Json.array items).reprinted.text = .ok (Json.array items).reprinted :=
    Json.readBy_text Json.Reader.toFloat?_readsBack readable.reprinted
  refine ⟨ofItems (items.map Json.reprinted), ?_, ?_, ?_⟩
  · rw [Program.text, ofItems_toLiteral, parse, back, Json.reprinted_array]
    rfl
  · rw [ofItems_eq, ofItems_eq, List.map_map]
    refine Instruction.sameAll_map fun item member => ?_
    cases readable with
    | array each => exact (each item member).reread
  · rw [Program.text, Program.text, ofItems_toLiteral, ofItems_toLiteral, ← Json.reprinted_array,
      Json.reprinted_reprinted]

/-- Numbers that are printed in another form, text, nested programs, tokens that cannot be
read, and literals that keep their numbers. -/
theorem parse_text_mixed :
    let source :=
      "[1.0,-0.0,18446744073709551615,\"+\",[\"\\u000a\"],[0.10,\"x y\"],\x7b\"@\":[1.0]\x7d,\x7b\"?\":-0\x7d]"
    let printed :=
      "[1,0,1.8446744073709552e+19,\"+\",[\"\\n\"],[0.1,\"x y\"],\x7b\"@\":[1.0]\x7d,\x7b\"?\":-0.0\x7d]"
    ∃ program, parse source = .ok program ∧ Program.text program = printed ∧
      ∃ again, parse printed = .ok again ∧ Instruction.sameAll again program = true ∧
        Program.text again = printed := by
  intro source printed
  have computed : (parse source).toOption.map Program.text = some printed := by decide +kernel
  cases parsed : parse source with
  | error fault =>
    rw [parsed] at computed
    cases computed
  | ok program =>
    have text : Program.text program = printed := by
      rw [parsed] at computed
      exact Option.some.inj computed
    have again := parse_text parsed
    rw [text] at again
    exact ⟨program, rfl, text, again⟩

end Program

end StackScript
