/-
# StackScript.Proofs.Readings — a literal means the same wherever it stands

A literal is looked at twice. `Instruction.ofLiteral` sorts it by its shape before the
program runs, and what it then holds may be a value, the literal itself for later, or a
fault. `construct` sorts it again when it is an element of an array or dict literal. The
two agree on every literal that is not a string (`Machine.execute_ofLiteral`): executed
as an instruction, it pushes the value that it would be as an element, or fails in the
same way (`Machine.execute_constructs`). So an array or a dict literal can be built by
executing its elements one by one and collecting what each of them pushes
(`Machine.readings_agree`). A string is the exception. As an instruction it is any
token, as an element it is a push.
-/
import StackScript.Host.Basic
import StackScript.Proofs.Machine

namespace StackScript

set_option autoImplicit false

namespace Action

variable {σ α β : Type}

/-- Work on the stack, part by part. -/
theorem onStack_bind (work : OnStack α) (next : α → OnStack β) :
    (onStack (work >>= next) : Action σ β) = onStack work >>= fun result => onStack (next result) := by
  apply Work.ext
  intro machine
  rw [run_onStack, Work.run_bind, Work.run_bind, run_onStack]
  rcases work.run machine.context.stack with ⟨_ | result, stack⟩
  · rfl
  · simp only [Except.mapError, run_onStack]

end Action

namespace Machine

variable {σ : Type}

/-! ## One literal -/

/-- The value of a literal, constructed in the context of the moment. -/
def build (tree : Json) : Action σ Value := do
  let context ← Action.getContext
  Action.onStack (construct context.bindings tree)

theorem run_build (tree : Json) (machine : Machine σ) :
    (build tree).run machine =
      (Action.onStack (construct machine.context.bindings tree)).run machine := by
  rw [build, Work.run_bind_ok (Action.run_getContext machine)]

variable [Host σ] (settings : Settings σ) (call : Program → Action σ Unit)

theorem execute_value (held : Value) (machine : Machine σ) :
    (execute settings call (.value held)).run machine = (.ok .next, machine.pushed held) := by
  rw [execute, Work.run_bind_ok (Action.run_push held machine), Work.run_pure]

theorem execute_literal {tree : Json} {value : Value} (machine : Machine σ)
    (constructs : construct machine.context.bindings tree = pure value) :
    (execute settings call (.literal tree)).run machine = (.ok .next, machine.pushed value) := by
  have built : (Action.onStack (construct machine.context.bindings tree)).run machine =
      (.ok value, machine) := by
    rw [Action.run_onStack, constructs]
    rfl
  rw [execute, Work.run_bind_ok (Action.run_getContext machine), Work.run_bind_ok built,
    Work.run_bind_ok (Action.run_push value machine), Work.run_pure]

theorem execute_literal_throw {tree : Json} {fault : Fault} (machine : Machine σ)
    (constructs : construct machine.context.bindings tree = throw fault) :
    (execute settings call (.literal tree)).run machine = (.error { fault }, machine) := by
  have failed : (Action.onStack (construct machine.context.bindings tree)).run machine =
      (.error { fault }, machine) := by
    rw [Action.run_onStack, constructs]
    rfl
  rw [execute, Work.run_bind_ok (Action.run_getContext machine), Work.run_bind_error failed]

/-- What a literal does does not depend on when it is read, strings apart. -/
theorem execute_ofLiteral {tree : Json} (notString : ∀ text, tree ≠ .string text) :
    execute settings call (.ofLiteral tree) = execute settings call (.literal tree) := by
  -- a value that was read beforehand is the one that would be constructed
  have held {value : Value} (constructs : ∀ bindings, construct bindings tree = pure value) :
      execute settings call (.value value) = execute settings call (.literal tree) :=
    Work.ext fun machine => by
      rw [execute_literal settings call machine (constructs _), execute_value]
  cases tree with
  | string text => exact absurd rfl (notString text)
  | null => rw [Instruction.ofLiteral_null]
  | bool b =>
    rw [Instruction.ofLiteral_bool]
    exact held fun bindings => construct_bool bindings b
  | integer n =>
    rw [Instruction.ofLiteral_integer]
    exact held fun bindings => construct_integer bindings n
  | float x finite =>
    rw [Instruction.ofLiteral_float]
    exact held fun bindings => construct_float bindings x finite
  | array items =>
    by_cases isText : ∃ text, items = [.string text]
    · obtain ⟨text, rfl⟩ := isText
      rw [Instruction.ofLiteral_text]
    · have notText : ∀ text, items ≠ [.string text] := fun text same => isText ⟨text, same⟩
      rw [Instruction.ofLiteral_program notText]
      exact held fun bindings => construct_program bindings notText
  | object entries =>
    by_cases structured : (Json.object entries).shape.isStructured = true
    · simp only [Instruction.ofLiteral_object, structured, if_true]
    · have notArray : ∀ items, entries ≠ [(arrayTag, .array items)] := by
        rintro items rfl
        exact structured (by simp [Json.shape, Shape.isStructured])
      have notDict : ∀ inner, entries ≠ [(dictTag, .object inner)] := by
        rintro inner rfl
        exact structured (by simp [Json.shape, Shape.isStructured, arrayTag, dictTag])
      simp only [Instruction.ofLiteral_object, structured]
      refine Work.ext fun machine => ?_
      rw [execute_literal_throw settings call machine (construct_other _ notArray notDict)]
      rfl

/-- **A literal that is not a string, executed, pushes the value that it constructs**, and fails
where constructing it fails. -/
theorem execute_constructs {tree : Json} (notString : ∀ text, tree ≠ .string text) :
    execute settings call (.ofLiteral tree) = (do
      let value ← build tree
      Action.push value
      pure .next) := by
  rw [execute_ofLiteral settings call notString]
  simp only [execute, build, bind_assoc]

/-! ## The elements of a literal -/

/-- The value that an instruction pushes, taken off the stack again. -/
def executed (instruction : Instruction) : Action σ Value := do
  let _ ← execute settings call instruction
  Action.onStack Stack.pop

/-- The value of one element of an array or dict literal: a string is resolved as a push, any
other literal is executed as an instruction. -/
def executedElement : Json → Action σ Value
  | .string text => do
    let context ← Action.getContext
    Action.onStack (resolveElement context.bindings text)
  | tree => executed settings call (.ofLiteral tree)

theorem executed_ofLiteral {tree : Json} (notString : ∀ text, tree ≠ .string text) :
    executed settings call (.ofLiteral tree) = build tree := by
  apply Work.ext
  intro machine
  rw [executed, execute_constructs settings call notString, bind_assoc, Work.run_bind]
  rcases (build tree).run machine with ⟨_ | value, after⟩ <;> rfl

theorem run_executedElement (tree : Json) (machine : Machine σ) :
    (executedElement settings call tree).run machine =
      (Action.onStack (constructElement machine.context.bindings tree)).run machine := by
  have other (notString : ∀ text, tree ≠ .string text) :
      (executed settings call (.ofLiteral tree)).run machine =
        (Action.onStack (construct machine.context.bindings tree)).run machine := by
    rw [executed_ofLiteral settings call notString, run_build]
  cases tree with
  | string text => exact Work.run_bind_ok (Action.run_getContext machine) _
  | _ => exact other nofun

/-- Elements take indexes off the stack and leave the variables alone, so each of them finds the
variables that the first one found. -/
theorem run_executedElements (items : List Json) (machine : Machine σ) :
    (items.mapM (executedElement settings call)).run machine =
      (Action.onStack (items.mapM (constructElement machine.context.bindings))).run machine := by
  induction items generalizing machine with
  | nil => rfl
  | cons item items ih =>
    rw [List.mapM_cons, List.mapM_cons, Action.onStack_bind, Work.run_bind, Work.run_bind,
      run_executedElement, Action.run_onStack]
    rcases (constructElement machine.context.bindings item).run machine.context.stack with
      ⟨fault | value, stack⟩
    · rfl
    · simp only [Except.mapError, Action.onStack_bind, Work.run_bind, ih]
      rfl

/-- **A literal means the same wherever it stands.** On every machine, and whatever functions the
machine can call, a literal that is not a string does as an instruction what constructing it and
pushing the value does: it pushes the same value or fails in the same way, and leaves the same
machine. An array literal therefore holds what its elements push when they are executed one after
the other, each value being taken off the stack again, and a dict literal holds the same under its
keys. -/
theorem readings_agree :
    (∀ tree : Json, (∀ text, tree ≠ .string text) →
      execute settings call (.ofLiteral tree) = (do
        let value ← build tree
        Action.push value
        pure .next)) ∧
    (∀ items : List Json, build (.object [(arrayTag, .array items)]) = (do
      let values ← items.mapM (executedElement settings call)
      pure (.array values))) ∧
    ∀ entries : List (String × Json), build (.object [(dictTag, .object entries)]) = (do
      let values ← (entries.map Prod.snd).mapM (executedElement settings call)
      pure (.dict (Entries.ofList ((entries.map Prod.fst).zip values)))) := by
  refine ⟨fun tree => execute_constructs settings call, fun items => ?_, fun entries => ?_⟩
  all_goals
    apply Work.ext
    intro machine
    rw [run_build, Work.run_bind, run_executedElements]
  · rw [construct_array, Action.onStack_bind, Work.run_bind]
    rfl
  · rw [construct_dict, Action.onStack_bind, Work.run_bind]
    rfl

/-- The first element takes its key off the stack, and the second carries a tag over the wrong kind
of tree, which is only found when it is reached. An instruction and an entry of a dict fail with the
same message, and neither puts the key back. -/
theorem readings_agree_mistagged :
    let settings : Settings Transcript := { natives := Native.standard }
    let machine : Machine Transcript :=
      { host := {}, context := { stack := [.text "x"], bindings := [("v", .dict [("x", .null)])] } }
    let tree : Json :=
      .object [(arrayTag, .array [.string "$v.&0", .object [(arrayTag, .integer 5)]])]
    let failure : Failure := { fault := .unknownType "\x7b\"@\":5\x7d" }
    let after : Machine Transcript :=
      { machine with context := { machine.context with stack := [] } }
    (∀ text, tree ≠ .string text) ∧
      (execute settings (evaluate settings) (.ofLiteral tree)).run machine = (.error failure, after) ∧
      (build (.object [(dictTag, .object [("k", tree)])])).run machine = (.error failure, after) := by
  intro settings machine tree failure after
  have notString : ∀ text, tree ≠ .string text := by simp [tree]
  obtain ⟨instruction, _, dict⟩ := readings_agree settings (evaluate settings)
  have built : (build tree).run machine = (.error failure, after) := by
    unfold after machine tree failure
    rfl
  refine ⟨notString, ?_, ?_⟩
  · rw [instruction tree notString, Work.run_bind_error built]
  · rw [dict, Work.run_bind]
    unfold after machine tree failure
    rfl

end Machine

end StackScript
