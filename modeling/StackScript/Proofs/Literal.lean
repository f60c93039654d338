/-
# StackScript.Proofs.Literal — literals, part by part

Trees are read and written by functions that carry what they have done so far.
Here each is the plain map it amounts to, and `Json.induction` is the induction
that goes with such maps: over the items of an array and the entries of an
object, however deep.
-/
import StackScript.Program

namespace StackScript

set_option autoImplicit false

/-- A property of all trees, from the parts of a tree to the tree. -/
theorem Json.induction {motive : Json → Prop}
    (null : motive .null) (bool : ∀ b, motive (.bool b)) (integer : ∀ n, motive (.integer n))
    (float : ∀ x finite, motive (.float x finite)) (string : ∀ text, motive (.string text))
    (array : ∀ items, (∀ item ∈ items, motive item) → motive (.array items))
    (object : ∀ entries, (∀ entry ∈ entries, motive entry.2) → motive (.object entries)) :
    ∀ tree, motive tree
  | .null => null
  | .bool b => bool b
  | .integer n => integer n
  | .float x finite => float x finite
  | .string text => string text
  | .array items => array items fun item _ =>
      Json.induction null bool integer float string array object item
  | .object entries => object entries fun entry _ =>
      Json.induction null bool integer float string array object entry.2
termination_by tree => sizeOf tree
decreasing_by
  · decreasing_tactic
  · rename_i member
    have smaller := List.sizeOf_lt_of_mem member
    obtain ⟨key, tree⟩ := entry
    simp only [Prod.mk.sizeOf_spec, Json.object.sizeOf_spec] at smaller ⊢
    omega

/-- A property of all trees, from the literals inside a literal to the literal. An
object that carries neither tag over the right kind of tree has none inside. -/
theorem Json.literalInduction {motive : Json → Prop}
    (null : motive .null) (bool : ∀ b, motive (.bool b)) (integer : ∀ n, motive (.integer n))
    (float : ∀ x finite, motive (.float x finite)) (string : ∀ text, motive (.string text))
    (text : ∀ text, motive (.array [.string text]))
    (program : ∀ items, (∀ text, items ≠ [.string text]) → (∀ item ∈ items, motive item) →
      motive (.array items))
    (array : ∀ items, (∀ item ∈ items, motive item) → motive (.object [(arrayTag, .array items)]))
    (dict : ∀ entries, (∀ entry ∈ entries, motive entry.2) →
      motive (.object [(dictTag, .object entries)]))
    (other : ∀ entries, (∀ items, entries ≠ [(arrayTag, .array items)]) →
      (∀ inner, entries ≠ [(dictTag, .object inner)]) → motive (.object entries))
    (tree : Json) : motive tree := by
  -- The tags stand between a literal and its elements, so the elements of an array or
  -- an object come along with it.
  suffices motive tree ∧ (∀ items, tree = .array items → ∀ item ∈ items, motive item) ∧
      (∀ entries, tree = .object entries → ∀ entry ∈ entries, motive entry.2) from this.1
  induction tree using Json.induction with
  | null => exact ⟨null, nofun, nofun⟩
  | bool b => exact ⟨bool b, nofun, nofun⟩
  | integer n => exact ⟨integer n, nofun, nofun⟩
  | float x finite => exact ⟨float x finite, nofun, nofun⟩
  | string text => exact ⟨string text, nofun, nofun⟩
  | array items ih =>
    have each : ∀ item ∈ items, motive item := fun item member => (ih item member).1
    refine ⟨?_, fun _ same => by cases same; exact each, nofun⟩
    by_cases isText : ∃ text, items = [.string text]
    · obtain ⟨written, rfl⟩ := isText
      exact text written
    · exact program items (fun text same => isText ⟨text, same⟩) each
  | object entries ih =>
    refine ⟨?_, nofun, fun _ same => by cases same; exact fun entry member => (ih entry member).1⟩
    by_cases isArray : ∃ items, entries = [(arrayTag, .array items)]
    · obtain ⟨items, rfl⟩ := isArray
      exact array items ((ih _ List.mem_cons_self).2.1 items rfl)
    · by_cases isDict : ∃ inner, entries = [(dictTag, .object inner)]
      · obtain ⟨inner, rfl⟩ := isDict
        exact dict inner ((ih _ List.mem_cons_self).2.2 inner rfl)
      · exact other entries (fun items same => isArray ⟨items, same⟩)
          fun inner same => isDict ⟨inner, same⟩

/-! ## Reading -/

theorem Instruction.ofLiteralsOnto_eq (read : List Instruction) (items : List Json) :
    Instruction.ofLiteralsOnto read items = read.reverse ++ items.map Instruction.ofLiteral := by
  induction items generalizing read with
  | nil => simp [Instruction.ofLiteralsOnto]
  | cons item items ih => simp [Instruction.ofLiteralsOnto, Instruction.ofLiteral, ih]

/-- A program is its literals, each read on its own. -/
theorem Program.ofItems_eq (items : List Json) :
    Program.ofItems items = items.map Instruction.ofLiteral := by
  simp [Program.ofItems, Instruction.ofLiteralsOnto_eq]

/-- An array that is not text has the shape of a program. -/
theorem Json.shape_program {items : List Json} (notText : ∀ text, items ≠ [.string text]) :
    (Json.array items).shape = .function := by
  unfold Json.shape
  split <;> simp_all

/-- An object has a known shape only for its one tag. -/
theorem Json.shape_object (entries : List (String × Json)) :
    (∃ tree, entries = [(arrayTag, tree)] ∧ (Json.object entries).shape = .array) ∨
      (∃ tree, entries = [(dictTag, tree)] ∧ (Json.object entries).shape = .dict) ∨
      (Json.object entries).shape = .unknown := by
  cases entries with
  | nil => exact .inr (.inr rfl)
  | cons entry rest =>
    cases rest with
    | cons _ _ => exact .inr (.inr rfl)
    | nil =>
      obtain ⟨key, tree⟩ := entry
      by_cases isArray : key = arrayTag
      · subst isArray
        exact .inl ⟨tree, rfl, rfl⟩
      by_cases isDict : key = dictTag
      · subst isDict
        exact .inr (.inl ⟨tree, rfl, rfl⟩)
      · exact .inr (.inr (by simp [Json.shape, isArray, isDict]))

namespace Instruction

/-! One equation for each kind of literal; nothing else opens `ofLiteral`. -/

@[simp] theorem ofLiteral_null : ofLiteral .null = .literal .null := rfl

@[simp] theorem ofLiteral_bool (b : Bool) : ofLiteral (.bool b) = .value (.boolean b) := rfl

@[simp] theorem ofLiteral_integer (n : Int) :
    ofLiteral (.integer n) = .value (.number (Number.ofInt n)) := rfl

@[simp] theorem ofLiteral_float (x : Float) (finite : Number.isFinite x = true) :
    ofLiteral (.float x finite) = .value (.number x) := rfl

@[simp] theorem ofLiteral_string (text : String) : ofLiteral (.string text) = .ofToken text := rfl

@[simp] theorem ofLiteral_text (text : String) :
    ofLiteral (.array [.string text]) = .literal (.array [.string text]) := rfl

/-- An array that is not text is a program. -/
theorem ofLiteral_program {items : List Json} (notText : ∀ text, items ≠ [.string text]) :
    ofLiteral (.array items) = .value (.function (.program (Program.ofItems items))) := by
  simp only [ofLiteral, ofShape, Json.shape_program notText]
  rfl

/-- An object is kept for later if its shape is known, and fails otherwise. -/
theorem ofLiteral_object (entries : List (String × Json)) :
    ofLiteral (.object entries) =
      if (Json.object entries).shape.isStructured then .literal (.object entries)
      else .unknown (.object entries) := by
  rcases Json.shape_object entries with ⟨_, _, shape⟩ | ⟨_, _, shape⟩ | shape
  all_goals
    simp only [ofLiteral, ofShape, shape]
    rfl

/-- What a literal is read as: a token, a simple value, a program, itself for later,
or a failure. -/
theorem ofLiteral_cases (tree : Json) :
    (∃ text, tree = .string text ∧ ofLiteral tree = .ofToken text) ∨
      (∃ held, held.isContainer = false ∧ held.type ≠ .function ∧ ofLiteral tree = .value held) ∨
      (∃ items, tree = .array items ∧ (∀ text, items ≠ [.string text]) ∧
        ofLiteral tree = .value (.function (.program (Program.ofItems items)))) ∨
      ofLiteral tree = .literal tree ∨ ofLiteral tree = .unknown tree := by
  cases tree with
  | string text => exact .inl ⟨text, rfl, ofLiteral_string text⟩
  | bool b => exact .inr (.inl ⟨.boolean b, rfl, nofun, ofLiteral_bool b⟩)
  | integer n => exact .inr (.inl ⟨.number (Number.ofInt n), rfl, nofun, ofLiteral_integer n⟩)
  | float x finite => exact .inr (.inl ⟨.number x, rfl, nofun, ofLiteral_float x finite⟩)
  | null => exact .inr (.inr (.inr (.inl ofLiteral_null)))
  | array items =>
    by_cases isText : ∃ text, items = [.string text]
    · obtain ⟨text, rfl⟩ := isText
      exact .inr (.inr (.inr (.inl (ofLiteral_text text))))
    · have notText : ∀ text, items ≠ [.string text] := fun text same => isText ⟨text, same⟩
      exact .inr (.inr (.inl ⟨items, rfl, notText, ofLiteral_program notText⟩))
  | object entries =>
    rw [ofLiteral_object]
    split
    · exact .inr (.inr (.inr (.inl rfl)))
    · exact .inr (.inr (.inr (.inr rfl)))

end Instruction

/-! ## Writing -/

theorem Value.literalsOnto_eq (found : List Json) (items : List Value) :
    Value.literalsOnto found items = found.reverse ++ items.map Value.toLiteral := by
  induction items generalizing found with
  | nil => simp [Value.literalsOnto]
  | cons item items ih => simp [Value.literalsOnto, ih]

theorem Value.literalEntriesOnto_eq (found : List (String × Json)) (entries : List (String × Value)) :
    Value.literalEntriesOnto found entries =
      found.reverse ++ entries.map fun entry => (entry.1, entry.2.toLiteral) := by
  induction entries generalizing found with
  | nil => simp [Value.literalEntriesOnto]
  | cons entry entries ih => simp [Value.literalEntriesOnto, ih]

theorem Instruction.literalsOnto_eq (found : List Json) (program : Program) :
    Instruction.literalsOnto found program = found.reverse ++ program.map Instruction.toLiteral := by
  induction program generalizing found with
  | nil => simp [Instruction.literalsOnto]
  | cons instruction rest ih => simp [Instruction.literalsOnto, ih]

end StackScript
