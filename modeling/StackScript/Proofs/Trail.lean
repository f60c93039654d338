/-
# StackScript.Proofs.Trail — the trail of a failure is the chain of calls

A failure records the instructions that it passes on its way out. Each of them called
the program of the next one, and the last one failed without a program inside
(`Machine.FailsAlong`). The trail is therefore as long as the calls were deep: at most
as long as the limit, and exactly that long if the limit stopped the run. The end of a
session is recorded nowhere (`Machine.evaluate_trail`).
-/
import StackScript.Host.Basic
import StackScript.Proofs.Guard

namespace StackScript

set_option autoImplicit false

/-- An instruction that was read from a literal raises an ordinary fault, or ends the session. -/
theorem Instruction.FromLiteral.raises {instruction : Instruction} (read : instruction.FromLiteral)
    {fault : Fault} (raised : instruction.Raises fault) :
    fault.Ordinary ∨ fault = .terminated ∧ instruction.Exits := by
  cases raised with
  | ordinary ordinary => exact .inl ordinary
  | terminated exits => exact .inr ⟨rfl, exits⟩
  | stored same =>
    obtain ⟨tree, rfl⟩ := read
    exact .inl (Instruction.ofLiteral_invalid same)

namespace Machine

variable {σ : Type} [Host σ] {settings : Settings σ} {program : Program} {start : Machine σ}

/-- The program, called on `start`, fails with the fault along these texts. The first is
that of an instruction it came to. If it is the only one, the instruction failed with no
program inside that had begun to run. Otherwise the instruction called a program, and
that one failed along the others. -/
inductive FailsAlong (settings : Settings σ) : Program → Machine σ → Fault → List String → Prop
  | last {program : Program} {start after : Machine σ} {frame : Frame σ} {fault : Fault}
      (reached : frame.Of settings program start)
      (raised : frame.Does settings (.error { fault }) after) :
      FailsAlong settings program start fault [frame.text]
  | through {program inner : Program} {start next : Machine σ} {frame : Frame σ} {fault : Fault}
      {trail : List String} (reached : frame.Of settings program start)
      (invokes : frame.Invokes settings (.program inner) next)
      (inside : FailsAlong settings inner next fault trail) :
      FailsAlong settings program start fault (frame.text :: trail)

theorem FailsAlong.length_pos {fault : Fault} {trail : List String}
    (fails : FailsAlong settings program start fault trail) : 1 ≤ trail.length := by
  cases fails <;> simp

/-! ## One instruction -/

/-- A native of a session fails by itself, and is never found to have broken the context. -/
theorem standard_fails (standard : settings.natives = Native.standard)
    {call : Program → Action σ Unit} {name : String} {machine after : Machine σ} {cause : Failure}
    (valid : machine.context.isValid = true)
    (ran : (invoke settings call (.native name)).run machine = (.error cause, after)) :
    cause.trail = [] ∧ cause.fault.Ordinary := by
  rw [run_invoke_native, standard] at ran
  rcases native : (Native.standard name).run (machine.context, machine.host) with
    ⟨failure | _, context, host⟩ <;> rw [native] at ran
  · cases ran
    exact (Native.standard_run native).2.2 cause rfl
  · obtain ⟨bindings, functions, _⟩ := Native.standard_run native
    have still : context.isValid = true := by
      refine Context.isValid_of_added valid functions fun other bound => .inl ?_
      rwa [Context.Binds, bindings] at bound
    simp only [still, if_true] at ran
    cases ran

/-- An instruction fails by itself or in a program that it calls. -/
theorem frame_fails (standard : settings.natives = Native.standard) (ready : Ready program start)
    {frame : Frame σ} (reached : frame.Of settings program start) {cause : Failure}
    {after : Machine σ} (done : frame.Does settings (.error cause) after) :
    (cause.trail = [] ∧
        (cause.fault.Ordinary ∨ cause.fault = .terminated ∧ frame.instruction.Exits)) ∨
      ∃ inner next, frame.Invokes settings (.program inner) next ∧
        (evaluate settings inner).run next = (.error cause, after) := by
  obtain ⟨⟨_, valid⟩, read⟩ := ready.frame (standard_placesLiterals standard) reached
  cases done.outcome with
  | plain plain => exact .inl ⟨plain.ends.1, read.raises plain.ends.2⟩
  | @thrown body next _ _ invokes ran =>
    cases body with
    | program inner => exact .inr ⟨inner, next, invokes, ran⟩
    | native name =>
      left
      have still : next.context.isValid = true := invokes.isValid (by simpa using valid)
      exact (standard_fails standard still ran).imp_right .inl

/-! ## The whole chain -/

/-- What the trail of a failure says of the run that it ended. -/
structure Traced (settings : Settings σ) (program : Program) (start : Machine σ)
    (failure : Failure) : Prop where
  goesOn : failure.fault.kind ≠ .terminated
  along : FailsAlong settings program start failure.fault failure.trail
  within : failure.trail.length + start.depth ≤ settings.limit
  atLimit : failure.fault.kind = .callDepthExceeded →
    failure.trail.length + start.depth = settings.limit

/-- One more call outside. -/
theorem Traced.outside {inner : Program} {next : Machine σ} {frame : Frame σ} {cause : Failure}
    (reached : frame.Of settings program start)
    (invokes : frame.Invokes settings (.program inner) next)
    (inside : Traced settings inner next cause) :
    Traced settings program start (cause.within frame.text) := by
  obtain ⟨goesOn, along, within, atLimit⟩ := inside
  have deeper := reached.depth invokes
  refine ⟨?_, ?_, ?_, ?_⟩
  · rwa [Action.fault_within]
  · rw [Action.fault_within, trail_within goesOn]
    exact .through reached invokes along
  · rw [trail_within goesOn, List.length_cons]
    omega
  · rw [Action.fault_within, trail_within goesOn, List.length_cons]
    intro kind
    have := atLimit kind
    omega

/-- An instruction that fails with no program inside that had begun to run. -/
theorem Traced.innermost {frame : Frame σ} {cause : Failure} {after : Machine σ}
    (goesOn : cause.fault.kind ≠ .terminated) (reached : frame.Of settings program start)
    (done : frame.Does settings (.error cause) after) (alone : cause.trail = [])
    (atLimit : cause.fault.kind = .callDepthExceeded → start.depth + 1 = settings.limit) :
    Traced settings program start (cause.within frame.text) := by
  have room := reached.2.entry.2
  obtain ⟨fault, _⟩ := cause
  cases alone
  refine ⟨?_, ?_, ?_, ?_⟩
  · rwa [Action.fault_within]
  · rw [Action.fault_within, trail_within goesOn]
    exact .last reached done
  · rw [trail_within goesOn, List.length_singleton]
    omega
  · rw [Action.fault_within, trail_within goesOn, List.length_singleton]
    intro kind
    have := atLimit kind
    omega

/-- A failure ends the session or shows its chain of calls. -/
theorem evaluate_traced (standard : settings.natives = Native.standard) (ready : Ready program start)
    (room : start.depth < settings.limit) {failure : Failure} {after : Machine σ}
    (ran : (evaluate settings program).run start = (.error failure, after)) :
    failure = { fault := .terminated } ∨ Traced settings program start failure := by
  -- by induction on the room that is left for calls
  induction left : settings.limit - start.depth using Nat.strong_induction_on
    generalizing program start failure after with
  | _ n ih =>
    have ended := evaluate_ended settings program start
    rw [ran] at ended
    cases ended with
    | refused invalid => exact absurd ready.valid (by simp [invalid])
    | full _ full => omega
    | @failed frame cause _ reached done =>
      rcases frame_fails standard ready reached done with
        ⟨alone, ordinary | ⟨exits, _⟩⟩ | ⟨inner, next, invokes, inside⟩
      · obtain ⟨goesOn, enough⟩ := ordinary.kind_ne
        exact .inr (.innermost goesOn reached done alone fun kind => absurd kind enough)
      · obtain ⟨fault, _⟩ := cause
        cases alone
        cases exits
        exact .inl rfl
      · have ready' := ready.called (standard_placesLiterals standard) reached invokes
        have deeper := reached.depth invokes
        by_cases more : next.depth < settings.limit
        · rcases ih (settings.limit - next.depth) (by omega) ready' more inside rfl with
            rfl | traced
          · exact .inl rfl
          · exact .inr (traced.outside reached invokes)
        · -- the program that is called does not begin to run
          rw [evaluate_full ready'.valid (Nat.le_of_not_lt more)] at inside
          cases inside
          have goesOn : (Fault.callDepthExceeded settings.limit).kind ≠ .terminated := by
            intro same
            cases same
          exact .inr (.innermost goesOn reached done rfl fun _ => by omega)

/-- **The trail of a failure is the chain of calls that led to it.** After a program, however
it ended, the machine is outside all programs again. A failure shows the instructions along
which it happened, from the outermost program to the innermost. They are at least one and
at most as many as the limit, and as many as the limit if there was no room for another
call. The end of the session shows nothing, from whatever depth it was reached. -/
theorem evaluate_trail (limit : Nat) (tracing : Bool) {program : Program} {start after : Machine σ}
    {result : Except Failure Unit} (positive : 1 ≤ limit) (read : program.FromLiterals)
    (literals : start.context.FromLiterals) (valid : start.context.isValid = true)
    (outside : start.depth = 0)
    (ran : (evaluate { natives := Native.standard, limit, tracing } program).run start =
      (result, after)) :
    after.depth = 0 ∧ ∀ failure, result = .error failure →
      (failure.fault.kind = .terminated → failure = { fault := .terminated }) ∧
      (failure.fault.kind ≠ .terminated →
        FailsAlong { natives := Native.standard, limit, tracing } program start failure.fault
            failure.trail ∧
          1 ≤ failure.trail.length ∧ failure.trail.length ≤ limit ∧
          (failure.fault.kind = .callDepthExceeded → failure.trail.length = limit)) := by
  let settings : Settings σ := { natives := Native.standard, limit, tracing }
  have standard : settings.natives = Native.standard := rfl
  have room : start.depth < settings.limit := by
    show start.depth < limit
    omega
  constructor
  · have level := evaluate_level settings program start
    rw [ran] at level
    exact level.trans outside
  · rintro failure rfl
    rcases evaluate_traced standard ⟨read, literals, valid⟩ room ran with
      rfl | ⟨goesOn, along, within, atLimit⟩
    · exact ⟨fun _ => rfl, fun goesOn => absurd rfl goesOn⟩
    · rw [outside] at within atLimit
      exact ⟨fun kind => absurd kind goesOn, fun _ => ⟨along, along.length_pos, within, atLimit⟩⟩

/-- A function and a method that call each other until the limit stops them. -/
theorem evaluate_trail_mutual :
    let settings : Settings Transcript := { natives := Native.standard, limit := 4 }
    let program : Program := [.token "inner" (.call "inner")]
    let inner : Program := [.token ":$d.f" (.method { name := "d", segments := [.key "f"] })]
    let dict : Value := .dict [("f", .function (.program program))]
    let start : Machine Transcript :=
      { context := { bindings := [("d", dict)], functions := [("inner", .program inner)] }
        host := {} }
    let failure : Failure :=
      { fault := .callDepthExceeded 4, trail := ["inner", ":$d.f", "inner", ":$d.f"] }
    let after : Machine Transcript :=
      { context := {
          stack := [dict, dict], bindings := [("d", dict)]
          functions := Entries.insert "main" (.program program) [("inner", .program inner)] }
        host := {} }
    program.FromLiterals ∧ start.context.FromLiterals ∧ start.context.isValid = true ∧
      (evaluate settings program).run start = (.error failure, after) ∧ after.depth = 0 ∧
      FailsAlong settings program start failure.fault failure.trail ∧
      failure.trail.length = settings.limit := by
  intro settings program inner dict start failure after
  have read : program.FromLiterals :=
    .cons (Instruction.fromLiteral_token rfl) .nil
  have called : inner.FromLiterals :=
    .cons (Instruction.fromLiteral_token rfl) .nil
  have method : Piece.All Piece.FromLiterals (.value (.function (.program program))) :=
    Piece.all_function.mpr ⟨trivial, Discipline.read_body.mpr read⟩
  have literals : start.context.FromLiterals := by
    refine ⟨nofun, ?_, ?_⟩
    · simp only [start, List.forall_mem_singleton]
      exact Piece.all_dict.mpr ⟨trivial, by simpa using method⟩
    · simp only [start, List.forall_mem_singleton]
      exact Discipline.read_body.mpr called
  have valid : start.context.isValid = true := by decide +kernel
  have ran : (evaluate settings program).run start = (.error failure, after) := by
    unfold settings start failure after dict inner program
    rfl
  obtain ⟨level, failed⟩ := evaluate_trail 4 false (by decide) read literals valid rfl ran
  obtain ⟨along, _, _, atLimit⟩ := (failed failure rfl).2 (by decide)
  exact ⟨read, literals, valid, ran, level, along, atLimit rfl⟩

end Machine

end StackScript
