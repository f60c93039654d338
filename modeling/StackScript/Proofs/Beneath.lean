/-
# StackScript.Proofs.Beneath — a program sees only what it pops

Two things in the language look at a whole stack: `#flush`, which drops it, and the
native `stack-dump`, which emits it. A program that can reach neither of them is blind
to what lies under the values it pops. Put further values under the stack, and it ends
in the same way with those values still there (`Machine.evaluate_beneath`), unless it
ran out of values before: then it would have gone on with the new ones.

What a program can reach is in its own instructions and in everything the context
holds, at any depth. `stack-dump` itself may stand in the table of functions, as it
does in every session, as long as no call names it.
-/
import StackScript.Host.Basic
import StackScript.Proofs.Simulation

namespace StackScript

set_option autoImplicit false

/-- The native that looks at the whole stack. -/
def Body.dump : Body := .native "stack-dump"

/-- The instruction does not look at the whole stack, where calls find their functions in
the table. -/
def Instruction.Quiet (table : List (String × Body)) : Instruction → Prop
  | .token _ (.control op) => op ≠ .flush
  | .token _ (.call name) => Entries.find? name table ≠ some Body.dump
  | _ => True

/-- The piece, whatever lies inside it, does not look at the whole stack. -/
def Piece.Quiet (table : List (String × Body)) : Piece → Prop
  | .body whole => whole ≠ Body.dump
  | .instruction whole => whole.Quiet table
  | _ => True

/-- Nothing that a program meets in a context looks at the whole stack. -/
structure Context.Quiet (context : Context) (program : Program) : Prop where
  program : ∀ instruction ∈ program,
    Piece.All (Piece.Quiet context.functions) (.instruction instruction)
  stack : ∀ value ∈ context.stack, Piece.All (Piece.Quiet context.functions) (.value value)
  bindings : ∀ entry ∈ context.bindings, Piece.All (Piece.Quiet context.functions) (.value entry.2)
  functions : ∀ name program, (name, .program program) ∈ context.functions →
    ∀ instruction ∈ program, Piece.All (Piece.Quiet context.functions) (.instruction instruction)

namespace Discipline

/-- Nothing looks at the whole stack. Functions are added to the table, but never one
that does. -/
def quiet (table : List (String × Body)) : Discipline where
  dict _ := True
  body body := body ≠ Body.dump
  instruction instruction := instruction.Quiet table
  name _ := True
  functions functions :=
    (∀ name, Entries.find? name functions = some Body.dump → Entries.find? name table = some Body.dump) ∧
      ∀ name program, (name, .program program) ∈ functions →
        ∀ instruction ∈ program, Piece.All (Piece.Quiet table) (.instruction instruction)
  native name := name ≠ "stack-dump"
  fault _ := True

variable {table : List (String × Body)}

theorem quiet_ok : (quiet table).ok = Piece.Quiet table := by
  funext piece
  cases piece with
  | value value => cases value <;> rfl
  | _ => rfl

theorem quiet_allows {value : Value} :
    (quiet table).Allows value ↔ Piece.All (Piece.Quiet table) (.value value) := by
  rw [Allows, quiet_ok]

theorem quiet_runs {program : Program} :
    (quiet table).Runs program ↔
      ∀ instruction ∈ program, Piece.All (Piece.Quiet table) (.instruction instruction) := by
  rw [Runs, quiet_ok]

theorem quiet_lawful : (quiet table).Lawful where
  dict_nil := trivial
  dict_insert _ _ _ := trivial
  dict_replace _ _ _ := trivial
  native := by
    rintro name notDump rfl
    exact notDump rfl
  pop _ := trivial
  call := by
    rintro text name functions body notDump ⟨known, programs⟩ found
    cases body with
    | native called =>
      rintro rfl
      exact notDump (known name found)
    | program program =>
      exact quiet_runs.mpr (programs name program (Entries.mem_of_find? found))
  main := by
    rintro program functions runs ⟨known, programs⟩ _
    constructor
    · intro name found
      rw [Entries.find?_insert] at found
      split at found
      · cases found
      · exact known name found
    · intro name other member
      rcases Entries.mem_insert member with same | kept
      · cases same
        exact quiet_runs.mp runs
      · exact programs name other kept
  invalid _ := trivial
  fault _ := trivial
  valid _ _ := .inr fun _ => trivial

end Discipline

theorem Context.Quiet.obeys {context : Context} {program : Program} (quiet : context.Quiet program) :
    context.Obeys (Discipline.quiet context.functions) where
  stack value member := Discipline.quiet_allows.mpr (quiet.stack value member)
  names _ _ := trivial
  bindings entry member := Discipline.quiet_allows.mpr (quiet.bindings entry member)
  functions := ⟨fun _ => id, quiet.functions⟩

namespace Pairing

variable {σ : Type}

/-- A machine, and the same with further values under its stack. Nothing is promised
when the first runs out of values. -/
def above (table : List (String × Body)) (beneath : Stack) : Pairing σ σ where
  discipline := .quiet table
  beneath := beneath
  hosts := Eq
  escapes failure := failure.fault.kind = .stackUnderflow

theorem above_lawful [Host σ] (table : List (String × Body)) (beneath : Stack) :
    (above table beneath : Pairing σ σ).Lawful where
  discipline := Discipline.quiet_lawful
  emit line same := congrArg (Host.emit line) same
  clear same := congrArg Host.clear same
  ask _ same := same ▸ ⟨rfl, rfl⟩
  within {failure} text escaped := by
    show (failure.within text).fault.kind = .stackUnderflow
    rwa [Action.fault_within]
  underflow := .inr fun _ => id
  flush notFlush := absurd rfl notFlush
  stackDump notDump := absurd rfl notDump

end Pairing

namespace Machine

variable {σ : Type} [Host σ]

/-- **A program sees only what it pops.** With further values under the stack it ends in
the same way, with the same variables, functions and host, and the values are still there
under the stack that it leaves. Only the records of a trace show them. -/
theorem evaluate_beneath (limit : Nat) (tracing : Bool) {machine after : Machine σ}
    {program : Program} {result : Except Failure Unit} (quiet : machine.context.Quiet program)
    (ran : (evaluate { natives := Native.standard, limit, tracing } program).run machine =
      (result, after))
    (enough : ∀ failure, result = .error failure → failure.fault.kind ≠ .stackUnderflow)
    (beneath : Stack) :
    ∃ trace, (evaluate { natives := Native.standard, limit, tracing } program).run
        { machine with context := machine.context.atop beneath } =
      (result, { after with context := after.context.atop beneath, newestTrace := trace }) := by
  let settings : Settings σ := { natives := Native.standard, limit, tracing }
  let pairing : Pairing σ σ := .above machine.context.functions beneath
  have lawful : pairing.Lawful := Pairing.above_lawful _ beneath
  have agree : pairing.Agree settings settings :=
    ⟨fun name allowed => Native.standard_together lawful name allowed, .inl rfl⟩
  have runs : pairing.discipline.Runs program := Discipline.quiet_runs.mpr quiet.program
  have related : pairing.Related machine
      { machine with context := machine.context.atop beneath } :=
    ⟨rfl, rfl, rfl, quiet.obeys⟩
  have together := evaluate_together lawful agree runs machine _ related
  rw [ran] at together
  rcases together with escaped | ⟨_, final, ran', related⟩
  · cases result with
    | ok _ => exact escaped.elim
    | error failure => exact absurd escaped (enough failure rfl)
  · obtain ⟨context, host, depth, trace⟩ := final
    obtain ⟨rfl, rfl, rfl, _⟩ := related
    exact ⟨trace, ran'⟩

/-- A prompt whose answer is an index on top of the stack, with `stack-dump` in the table. -/
theorem evaluate_beneath_prompt :
    let program : Program := [.value (.text "key?"), .token "read-line" (.call "read-line"),
      .token "$d.&0" (.push { name := "d", segments := [.top] }), .token "+" (.control .add)]
    let machine : Machine Transcript :=
      { context := { Context.initial with
          stack := [.text "x"], bindings := [("d", .dict [("k", .text "v")])] }
        host := .ofAnswers ["k"] }
    let after : Machine Transcript :=
      { context := { machine.context with
          stack := [.text "vx"]
          functions := Entries.insert "main" (.program program) Context.initial.functions }
        host := { newestPrompts := ["key?"] } }
    machine.context.Quiet program ∧
      (evaluate { natives := Native.standard } program).run machine = (.ok (), after) ∧
      ∃ trace, (evaluate { natives := Native.standard } program).run
          { machine with context := machine.context.atop [.null] } =
        (.ok (), { after with context := after.context.atop [.null], newestTrace := trace }) := by
  intro program machine after
  have plain {table : List (String × Body)} (text : String) :
      Piece.All (Piece.Quiet table) (.value (.text text)) :=
    (Piece.all_scalar rfl (by intro same; cases same)).mpr trivial
  have called : Entries.find? "read-line" machine.context.functions ≠ some Body.dump := by
    intro same
    have other : Entries.find? "read-line" machine.context.functions = some (.native "read-line") := rfl
    simp [other, Body.dump] at same
  have quiet : machine.context.Quiet program := by
    refine ⟨?_, ?_, ?_, ?_⟩
    · simp only [program, List.forall_mem_cons]
      refine ⟨Piece.all_held.mpr ⟨trivial, plain "key?"⟩, Piece.all_token.mpr called,
        Piece.all_token.mpr trivial, Piece.all_token.mpr ?_, nofun⟩
      show Control.add ≠ Control.flush
      decide
    · simpa [machine] using plain "x"
    · simp only [machine, List.forall_mem_singleton]
      exact Piece.all_dict.mpr ⟨trivial, by simpa using plain "v"⟩
    · intro name other member
      have natives := Entries.mem_ofList _ member
      simp [Context.nativeNames] at natives
  have ran : (evaluate { natives := Native.standard } program).run machine = (.ok (), after) := by
    unfold program machine after
    rfl
  exact ⟨quiet, ran, evaluate_beneath 256 false quiet ran nofun [.null]⟩

end Machine

end StackScript
