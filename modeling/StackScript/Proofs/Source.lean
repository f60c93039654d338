/-
# StackScript.Proofs.Source — programs that were read from literals

A program was read from literals if some list of them reads as it, and a context is
made of such programs if everything it holds is: the functions, and every program
inside a value on the stack or in a variable, at any depth. Nothing is asked of the
names in the context, of its natives, or of the order of its dicts, so this is less
than what holds in a session. Running keeps it (`Discipline.read_lawful`).
-/
import StackScript.Proofs.Session

namespace StackScript

set_option autoImplicit false

/-- The program was read from a list of literals. -/
def Program.FromLiterals (program : Program) : Prop :=
  ∃ items, program = Program.ofItems items

theorem Program.FromLiterals.nil : Program.FromLiterals [] :=
  ⟨[], (Program.ofItems_eq []).symm⟩

theorem Program.FromLiterals.cons {instruction : Instruction} {rest : Program}
    (first : instruction.FromLiteral) (others : rest.FromLiterals) :
    Program.FromLiterals (instruction :: rest) := by
  obtain ⟨item, rfl⟩ := first
  obtain ⟨items, rfl⟩ := others
  refine ⟨item :: items, ?_⟩
  rw [Program.ofItems_eq, Program.ofItems_eq, List.map_cons]

theorem Program.fromLiterals_iff {program : Program} :
    program.FromLiterals ↔ ∀ instruction ∈ program, instruction.FromLiteral := by
  constructor
  · rintro ⟨items, rfl⟩ instruction member
    rw [Program.ofItems_eq] at member
    obtain ⟨item, _, rfl⟩ := List.mem_map.mp member
    exact ⟨item, rfl⟩
  · intro each
    induction program with
    | nil => exact .nil
    | cons instruction rest ih =>
      obtain ⟨first, others⟩ := List.forall_mem_cons.mp each
      exact .cons first (ih others)

/-- A token was read from its text. -/
theorem Instruction.fromLiteral_token {text : String} {token : Token}
    (read : Token.read text = .ok token) : Instruction.FromLiteral (.token text token) := by
  refine ⟨.string text, ?_⟩
  rw [Instruction.ofLiteral_string, Instruction.ofToken, read]

/-- A program that was read from literals, if the piece is a program at all. -/
def Piece.FromLiterals : Piece → Prop
  | .body (.program program) => Program.FromLiterals program
  | _ => True

/-- Every program in the context, at any depth, was read from literals. -/
structure Context.FromLiterals (context : Context) : Prop where
  stack : ∀ value ∈ context.stack, Piece.All Piece.FromLiterals (.value value)
  bindings : ∀ entry ∈ context.bindings, Piece.All Piece.FromLiterals (.value entry.2)
  functions : ∀ entry ∈ context.functions, Piece.All Piece.FromLiterals (.body entry.2)

namespace Discipline

/-- Every program was read from literals. -/
def read : Discipline where
  dict _ := True
  body body := Piece.FromLiterals (.body body)
  instruction := Instruction.FromLiteral
  name _ := True
  functions functions := ∀ entry ∈ functions, Piece.FromLiterals (.body entry.2)
  native _ := True
  fault _ := True

theorem read_ok {piece : Piece} (ok : read.ok piece) : piece.FromLiterals := by
  cases piece with
  | body body => exact ok
  | _ => trivial

theorem read_instruction {instruction : Instruction} :
    Piece.All read.ok (.instruction instruction) ↔ instruction.FromLiteral := by
  constructor
  · exact Piece.All.self
  · rintro ⟨tree, rfl⟩ piece inside
    -- a session asks for more
    have session : Discipline.session.ok piece := session_reads (session_literal tree) piece inside
    cases piece with
    | value value => cases value <;> trivial
    | literal tree => trivial
    | instruction instruction => exact session
    | body body =>
      obtain ⟨items, rfl, _⟩ := session
      exact ⟨items, rfl⟩

theorem read_runs {program : Program} : read.Runs program ↔ program.FromLiterals := by
  rw [Program.fromLiterals_iff]
  exact forall₂_congr fun _ _ => read_instruction

/-- Inside a value or a function, instructions lie in programs only. -/
theorem read_all {whole : Piece} (all : Piece.All Piece.FromLiterals whole)
    (outer : ∀ instruction, whole ≠ .instruction instruction) : Piece.All read.ok whole := by
  intro piece inside
  cases piece with
  | value value => cases value <;> trivial
  | literal tree => trivial
  | body body => exact all _ inside
  | instruction instruction =>
    rcases Relation.ReflTransGen.cases_head inside with same | ⟨_, part, above⟩
    · exact absurd same.symm (outer instruction)
    · cases part with
      | instruction member =>
        exact Program.fromLiterals_iff.mp (all _ above) instruction member

theorem read_body {body : Body} :
    Piece.All Piece.FromLiterals (.body body) ↔ Piece.FromLiterals (.body body) := by
  constructor
  · exact Piece.All.self
  · intro read
    cases body with
    | native name =>
      refine (Piece.all_leaf ?_).mpr trivial
      intro part inside
      cases inside
    | program program =>
      refine Piece.all_program.mpr ⟨read, fun instruction member piece inside => ?_⟩
      exact read_ok (read_runs.mpr read instruction member piece inside)

theorem read_obeys {context : Context} : context.Obeys read ↔ context.FromLiterals := by
  have value {value : Value} :
      read.Allows value ↔ Piece.All Piece.FromLiterals (.value value) := by
    constructor
    · intro allowed piece inside
      exact read_ok (allowed piece inside)
    · intro all
      exact read_all all nofun
  constructor
  · intro obeys
    refine ⟨fun held member => value.mp (obeys.stack held member), ?_, ?_⟩
    · exact fun entry member => value.mp (obeys.bindings entry member)
    · exact fun entry member => read_body.mpr (obeys.functions entry member)
  · intro literals
    refine ⟨fun held member => value.mpr (literals.stack held member), fun _ _ => trivial, ?_, ?_⟩
    · exact fun entry member => value.mpr (literals.bindings entry member)
    · exact fun entry member => read_body.mp (literals.functions entry member)

/-- Everything in a session was read from literals. -/
theorem session_obeys {context : Context} (obeys : context.Obeys session) :
    context.FromLiterals := by
  have value {value : Value} (allowed : session.Allows value) :
      Piece.All Piece.FromLiterals (.value value) := by
    intro piece inside
    have ok := allowed piece inside
    cases piece with
    | body body =>
      obtain ⟨items, rfl, _⟩ := ok
      exact ⟨items, rfl⟩
    | _ => trivial
  refine ⟨fun held member => value (obeys.stack held member), ?_, ?_⟩
  · exact fun entry member => value (obeys.bindings entry member)
  · rintro ⟨name, body⟩ member
    refine read_body.mpr ?_
    cases body with
    | native _ => trivial
    | program program =>
      exact Program.fromLiterals_iff.mpr ((obeys.functions _ member).2 program rfl)

theorem read_lawful : read.Lawful where
  dict_nil := trivial
  dict_insert _ _ _ := trivial
  dict_replace _ _ _ := trivial
  native _ := trivial
  pop _ := trivial
  call := by
    intro text name functions body _ table found
    have called := table _ (Entries.mem_of_find? found)
    cases body with
    | native name => trivial
    | program program => exact read_runs.mpr called
  main := by
    intro program functions runs table _ entry member
    rcases Entries.mem_insert member with rfl | kept
    · exact read_runs.mp runs
    · exact table entry kept
  invalid _ := trivial
  fault _ := trivial
  valid _ _ := .inr fun _ => trivial

end Discipline

end StackScript
