/-
# StackScript.Proofs.Piece — what lies inside what

Values hold functions, programs hold instructions, instructions hold values and
literals, and a literal holds the programs and literals that constructing it
meets. `Piece` is any of them, `Part` one piece directly in another, `Inside` a
piece at any depth of another. `Piece.All ok whole` says that everything inside
is `ok`; it is what an invariant of the running machine says about everything
the machine holds.
-/
import Mathlib.Logic.Relation
import StackScript.Program
import StackScript.Proofs.Entries
import StackScript.Slot.Read

namespace StackScript

set_option autoImplicit false

inductive Piece where
  | value (value : Value)
  | body (body : Body)
  | instruction (instruction : Instruction)
  | literal (tree : Json)

namespace Piece

/-- One piece lies directly in another. -/
inductive Part : Piece → Piece → Prop
  | item {value : Value} {items : List Value} (member : value ∈ items) :
      Part (.value value) (.value (.array items))
  | entry {entry : String × Value} {entries : List (String × Value)} (member : entry ∈ entries) :
      Part (.value entry.2) (.value (.dict entries))
  | body {body : Body} : Part (.body body) (.value (.function body))
  | instruction {instruction : Instruction} {program : Program} (member : instruction ∈ program) :
      Part (.instruction instruction) (.body (.program program))
  | held {value : Value} : Part (.value value) (.instruction (.value value))
  | tree {tree : Json} : Part (.literal tree) (.instruction (.literal tree))
  /-- A literal that constructs a program. -/
  | program {items : List Json} (notText : ∀ text, items ≠ [.string text]) :
      Part (.body (.program (Program.ofItems items))) (.literal (.array items))
  | arrayElement {tree : Json} {items : List Json} (member : tree ∈ items) :
      Part (.literal tree) (.literal (.object [(arrayTag, .array items)]))
  | dictElement {entry : String × Json} {entries : List (String × Json)}
      (member : entry ∈ entries) :
      Part (.literal entry.2) (.literal (.object [(dictTag, .object entries)]))

/-- What lies directly in an object is an element of an array or dict literal. -/
theorem Part.of_object {part : Piece} {entries : List (String × Json)}
    (within : Part part (.literal (.object entries))) :
    (∃ items element, entries = [(arrayTag, .array items)] ∧ element ∈ items ∧
      part = .literal element) ∨
    (∃ inner entry, entries = [(dictTag, .object inner)] ∧ entry ∈ inner ∧
      part = .literal entry.2) := by
  cases within with
  | arrayElement member => exact .inl ⟨_, _, rfl, member, rfl⟩
  | dictElement member => exact .inr ⟨_, _, rfl, member, rfl⟩

theorem Part.slot {container slot : Value} {index : Index}
    (found : container.slot? index = .ok (some slot)) : Part (.value slot) (.value container) := by
  cases container with
  | array items =>
    cases index with
    | key name => cases found
    | position n => exact .item (List.mem_of_getElem? (Except.ok.inj found))
  | dict entries => exact .entry (Entries.mem_of_find? (Except.ok.inj found))
  | _ => cases found

/-- One piece lies in another at any depth, or is it. -/
abbrev Inside : Piece → Piece → Prop :=
  Relation.ReflTransGen Part

/-- Everything inside, the whole included, is `ok`. -/
def All (ok : Piece → Prop) (whole : Piece) : Prop :=
  ∀ piece, Inside piece whole → ok piece

variable {ok : Piece → Prop}

theorem All.self {whole : Piece} (all : All ok whole) : ok whole :=
  all whole .refl

theorem All.part {part whole : Piece} (all : All ok whole) (within : Part part whole) : All ok part :=
  fun piece inside => all piece (inside.tail within)

theorem all_iff {whole : Piece} : All ok whole ↔ ok whole ∧ ∀ part, Part part whole → All ok part := by
  constructor
  · intro all
    exact ⟨all.self, fun part within => all.part within⟩
  · rintro ⟨self, parts⟩ piece inside
    rcases Relation.ReflTransGen.cases_tail inside with same | ⟨part, below, within⟩
    · exact same ▸ self
    · exact parts part within piece below

/-- A piece with nothing inside. -/
theorem all_leaf {whole : Piece} (leaf : ∀ part, ¬ Part part whole) : All ok whole ↔ ok whole := by
  rw [all_iff]
  exact and_iff_left fun part within => absurd within (leaf part)

/-! ## The parts of each piece -/

theorem all_array {items : List Value} :
    All ok (.value (.array items)) ↔
      ok (.value (.array items)) ∧ ∀ value ∈ items, All ok (.value value) := by
  rw [all_iff]
  refine and_congr_right fun _ => ⟨fun parts value member => parts _ (.item member), ?_⟩
  rintro each _ (member | _)
  exact each _ member

theorem all_dict {entries : List (String × Value)} :
    All ok (.value (.dict entries)) ↔
      ok (.value (.dict entries)) ∧ ∀ entry ∈ entries, All ok (.value entry.2) := by
  rw [all_iff]
  refine and_congr_right fun _ => ⟨fun parts entry member => parts _ (.entry member), ?_⟩
  rintro each _ (_ | member)
  exact each _ member

theorem all_function {body : Body} :
    All ok (.value (.function body)) ↔ ok (.value (.function body)) ∧ All ok (.body body) := by
  rw [all_iff]
  refine and_congr_right fun _ => ⟨fun parts => parts _ .body, ?_⟩
  rintro all _ (_ | _ | _)
  exact all

/-- A value that is neither a container nor a function. -/
theorem all_scalar {value : Value} (simple : value.isContainer = false)
    (notFunction : value.type ≠ .function) : All ok (.value value) ↔ ok (.value value) := by
  refine all_leaf ?_
  rintro _ (_ | _ | _) <;> simp_all [Value.isContainer, Value.type]

theorem all_program {program : Program} :
    All ok (.body (.program program)) ↔
      ok (.body (.program program)) ∧ ∀ instruction ∈ program, All ok (.instruction instruction) := by
  rw [all_iff]
  refine and_congr_right fun _ => ⟨fun parts instruction member => parts _ (.instruction member), ?_⟩
  rintro each _ (_ | _ | _ | member)
  exact each _ member

theorem all_held {value : Value} :
    All ok (.instruction (.value value)) ↔
      ok (.instruction (.value value)) ∧ All ok (.value value) := by
  rw [all_iff]
  refine and_congr_right fun _ => ⟨fun parts => parts _ .held, ?_⟩
  rintro all _ (_ | _ | _ | _ | _)
  exact all

theorem all_tree {tree : Json} :
    All ok (.instruction (.literal tree)) ↔
      ok (.instruction (.literal tree)) ∧ All ok (.literal tree) := by
  rw [all_iff]
  refine and_congr_right fun _ => ⟨fun parts => parts _ .tree, ?_⟩
  rintro all _ (_ | _ | _ | _ | _ | _)
  exact all

theorem all_token {text : String} {read : Token} :
    All ok (.instruction (.token text read)) ↔ ok (.instruction (.token text read)) :=
  all_leaf nofun

theorem all_invalid {tree : Json} {fault : Fault} :
    All ok (.instruction (.invalid tree fault)) ↔ ok (.instruction (.invalid tree fault)) :=
  all_leaf nofun

/-- If the piece is a dict, its entries stand in ascending order of their keys. -/
def Ascends : Piece → Prop
  | .value (.dict entries) => Entries.Ascending entries
  | _ => True

end Piece

/-- Every dict inside, at any depth, has its entries in ascending order of their keys. -/
def Value.Ordered (value : Value) : Prop :=
  Piece.All Piece.Ascends (.value value)

namespace Value

theorem Ordered.ascending {entries : List (String × Value)} (ordered : Ordered (.dict entries)) :
    Entries.Ascending entries :=
  (Piece.all_dict.mp ordered).1

theorem Ordered.slot {container slot : Value} {index : Index} (ordered : container.Ordered)
    (found : container.slot? index = .ok (some slot)) : slot.Ordered :=
  ordered.part (.slot found)

end Value

end StackScript
