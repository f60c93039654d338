/-
# StackScript.Proofs.Guard — natives that break the context are found out

A native may do anything to a context, so the machine looks at the names in it when a
program starts and when a native has succeeded. Nothing runs between a native that
broke the context and that look, and no program turns the failure it leads to into a
success. A run that succeeds therefore leaves a valid context, and one that leaves a
broken context ended with the failure of the look, or with a failure that a native
raised itself (`Machine.evaluate_guarded`).

The natives are arbitrary, but for the programs that they put into the context: those
were read from literals, as all other programs. A pop then binds only names.
-/
import StackScript.Host.Basic
import StackScript.Proofs.Frame
import StackScript.Proofs.Source

namespace StackScript

set_option autoImplicit false

/-- A pop that was read from a literal binds a name. -/
theorem Instruction.FromLiteral.binds {instruction : Instruction} (read : instruction.FromLiteral)
    {name : String} (binds : instruction.Binds name) : isName name = true := by
  obtain ⟨tree, rfl⟩ := read
  obtain ⟨text, path, made, rfl⟩ := binds
  have spec := Token.read_spec text
  rw [Instruction.ofLiteral_token made] at spec
  exact Path.ofPop?_name spec

/-- A context stays valid if it gets no variables but those with names, and no functions. -/
theorem Context.isValid_of_added {before after : Context} (valid : before.isValid = true)
    (functions : after.functions = before.functions)
    (added : ∀ name, after.Binds name → before.Binds name ∨ isName name = true) :
    after.isValid = true := by
  rw [Context.isValid_iff] at valid ⊢
  intro name member
  rcases List.mem_append.mp member with bound | defined
  · rcases added name bound with earlier | named
    · exact valid name (List.mem_append_left _ earlier)
    · exact named
  · rw [functions] at defined
    exact valid name (List.mem_append_right _ defined)

theorem Context.bindMain_isValid {context : Context} (valid : context.isValid = true)
    (program : Program) : (context.bindMain program).isValid = true := by
  have named : isName Context.mainName = true := by decide
  unfold Context.bindMain
  split
  · exact valid
  · rw [Context.isValid_iff] at valid ⊢
    intro name member
    rcases List.mem_append.mp member with bound | defined
    · exact valid name (List.mem_append_left _ bound)
    · rcases Entries.mem_keys_insert.mp defined with rfl | earlier
      · exact named
      · exact valid name (List.mem_append_right _ earlier)

namespace Machine

variable {σ : Type} [Host σ]

omit [Host σ] in
/-- A call leaves the names in the context as they are. -/
theorem Invokes.isValid {machine next : Machine σ} {instruction : Instruction} {body : Body}
    (invokes : Invokes machine instruction body next) (valid : machine.context.isValid = true) :
    next.context.isValid = true := by
  have steady := invokes.steady fun _ => False
  refine Context.isValid_of_added valid steady.functions fun name bound => ?_
  exact (steady.added name bound).imp_right False.elim

/-- The evaluation of the program on `start` called a native that failed with the fault, and
that left the context and the host. -/
def NativeFailed (settings : Settings σ) (program : Program) (start : Machine σ) (fault : Fault)
    (context : Context) (host : σ) : Prop :=
  ∃ frame name next cause, Dispatches settings program start frame ∧
    frame.Invokes settings (.native name) next ∧
    (settings.natives name).run (next.context, next.host) = (.error cause, context, host) ∧
    cause.fault = fault

/-- The programs that the natives put into a context were read from literals. -/
def PlacesLiterals (settings : Settings σ) : Prop :=
  ∀ name context host, context.FromLiterals →
    ((settings.natives name).run (context, host)).2.1.FromLiterals

/-- The natives of a session put no programs into a context. -/
theorem standard_placesLiterals {settings : Settings σ}
    (standard : settings.natives = Native.standard) : PlacesLiterals settings := by
  intro name context host literals
  have alone : (Pairing.alone Discipline.read : Pairing σ σ).Lawful :=
    Pairing.alone_lawful Discipline.read_lawful
  have same : context = context.atop [] := by
    rw [Context.atop, List.append_nil]
  have sees : (Pairing.alone Discipline.read : Pairing σ σ).Sees (context, host) (context, host) :=
    ⟨same, rfl, Discipline.read_obeys.mpr literals⟩
  rw [standard]
  rcases Native.standard_together alone name trivial _ _ sees with escaped | ⟨_, _, _, after⟩
  · revert escaped
    rcases ((Native.standard name).run (context, host)).1 with _ | _ <;> exact False.elim
  · exact Discipline.read_obeys.mp after.obeys

/-- Before every instruction the context is valid, and only a native that fails leaves it
otherwise without being found out. -/
def Invariant.guarded (settings : Settings σ) (program : Program) (start : Machine σ) :
    Invariant σ where
  during := Dispatches settings program start
  allows := Instruction.FromLiteral
  holds context _ := context.FromLiterals ∧ context.isValid = true
  fails failure context host := context.isValid = true ∨ failure.fault.kind = .unsafeContext ∨
    NativeFailed settings program start failure.fault context host

theorem Invariant.guarded_lawful {settings : Settings σ} (places : PlacesLiterals settings)
    (program : Program) (start : Machine σ) :
    (Invariant.guarded settings program start).Lawful settings where
  plain := by
    rintro instruction before after result read ⟨literals, valid⟩ plain
    have kept : after.context.FromLiterals :=
      Discipline.read_obeys.mp (plain.obeys _ Discipline.read_lawful
        (Discipline.read_instruction.mpr read) (Discipline.read_obeys.mpr literals))
    have still : after.context.isValid = true :=
      Context.isValid_of_added valid plain.steady.functions fun name bound =>
        (plain.steady.added name bound).imp_right read.binds
    cases result with
    | ok flow => exact ⟨kept, still⟩
    | error failure => exact .inl still
  invokes := by
    rintro instruction machine next body read ⟨literals, valid⟩ invokes
    obtain ⟨obeys, calls⟩ := invokes.obeys Discipline.read_lawful
      (Discipline.read_instruction.mpr read) (Discipline.read_obeys.mpr literals)
    refine ⟨⟨Discipline.read_obeys.mp obeys, invokes.isValid valid⟩, ?_⟩
    rintro inner rfl
    exact Program.fromLiterals_iff.mp (Discipline.read_runs.mp calls)
  returns := by
    rintro frame name next context host _ _ ⟨literals, _⟩ ran
    have placed := places name next.context next.host literals
    rw [ran] at placed
    split
    · rename_i valid
      exact ⟨placed, valid⟩
    · exact .inr (.inl rfl)
  throws := by
    rintro frame name next context host failure dispatched invokes _ ran
    exact .inr (.inr ⟨frame, name, next, failure, dispatched, invokes, ran, rfl⟩)
  refused := by
    rintro context host ⟨_, valid⟩ invalid
    rw [valid] at invalid
    cases invalid
  full := by
    rintro context host ⟨_, valid⟩
    exact .inl valid
  main := by
    rintro context host inner ⟨literals, valid⟩ read
    refine ⟨?_, Context.bindMain_isValid valid inner⟩
    have runs := Discipline.read_runs.mpr (Program.fromLiterals_iff.mpr read)
    exact Discipline.read_obeys.mp
      ((Discipline.read_obeys.mpr literals).bindMain Discipline.read_lawful runs)
  within := by
    intro failure context host text fails
    simpa only [Invariant.guarded, Action.fault_within] using fails

/-- The program and everything in the context were read from literals, and the names in the
context are proper. -/
structure Ready (program : Program) (start : Machine σ) : Prop where
  program : program.FromLiterals
  context : start.context.FromLiterals
  valid : start.context.isValid = true

namespace Ready

variable {settings : Settings σ} {program : Program} {start : Machine σ}
  (ready : Ready program start) (places : PlacesLiterals settings)

include ready places

theorem frame {frame : Frame σ} (reached : frame.Of settings program start) :
    (frame.machine.context.FromLiterals ∧ frame.machine.context.isValid = true) ∧
      frame.instruction.FromLiteral :=
  Invariant.dispatched (Invariant.guarded_lawful places program start) (.own reached) (fun _ => id)
    (Program.fromLiterals_iff.mp ready.program) ⟨ready.context, ready.valid⟩

theorem after : (Invariant.guarded settings program start).After
    ((evaluate settings program).run start).1 ((evaluate settings program).run start).2 :=
  Invariant.evaluate (Invariant.guarded_lawful places program start) (fun _ => id)
    (Program.fromLiterals_iff.mp ready.program) ⟨ready.context, ready.valid⟩

/-- A program that is called is ready as well. -/
theorem called {frame : Frame σ} (reached : frame.Of settings program start) {inner : Program}
    {next : Machine σ} (invokes : frame.Invokes settings (.program inner) next) :
    Ready inner next := by
  obtain ⟨holds, read⟩ := ready.frame places reached
  have now : (Invariant.guarded settings program start).holds (frame.now settings).context
      (frame.now settings).host := by
    simpa [Invariant.guarded] using holds
  obtain ⟨⟨literals, valid⟩, runs⟩ :=
    (Invariant.guarded_lawful places program start).invokes read now invokes
  exact ⟨Program.fromLiterals_iff.mpr (runs inner rfl), literals, valid⟩

end Ready

/-- A failure that has passed an instruction shows it, unless it ends the session. -/
theorem trail_within {failure : Failure} {text : String} (goesOn : failure.fault.kind ≠ .terminated) :
    (failure.within text).trail = text :: failure.trail := by
  simp [Failure.within, Fault.terminates, goesOn]

/-- A program is refused exactly when the context is not valid. -/
theorem evaluate_refused_iff (settings : Settings σ) (program : Program) (start : Machine σ) :
    (∃ failure, ((evaluate settings program).run start).1 = .error failure ∧
      failure.fault.kind = .invalidApi ∧ failure.trail = []) ↔ start.context.isValid = false := by
  constructor
  · rintro ⟨failure, ran, kind, trail⟩
    have ended := evaluate_ended settings program start
    rw [ran] at ended
    generalize ((evaluate settings program).run start).2 = after at ended
    cases ended with
    | refused invalid => exact invalid
    | full valid full => cases kind
    | failed reached done =>
      rw [Action.fault_within] at kind
      rw [trail_within (by rw [kind]; decide)] at trail
      cases trail
  · intro invalid
    rw [evaluate_refused invalid]
    exact ⟨_, rfl, rfl, rfl⟩

/-- **A native that breaks the context is found out.** After a success the context is valid.
A program is refused, and then leaves the machine as it was, exactly if the context was not
valid before. And a failure that leaves a broken context is that of the look after a native,
or one that a native raised, with nothing done since. The natives may be any, as long as
the programs that they put into the context were read from literals. -/
theorem evaluate_guarded (settings : Settings σ) (places : PlacesLiterals settings)
    {program : Program} {start after : Machine σ} {result : Except Failure Unit}
    (read : program.FromLiterals) (literals : start.context.FromLiterals)
    (ran : (evaluate settings program).run start = (result, after)) :
    (result = .ok () → after.context.isValid = true) ∧
      ((∃ failure, result = .error failure ∧ failure.fault.kind = .invalidApi ∧ failure.trail = []) ↔
        start.context.isValid = false) ∧
      (start.context.isValid = false → after = start) ∧
      (start.context.isValid = true → ∀ failure, result = .error failure →
        after.context.isValid = false →
          failure.fault.kind = .unsafeContext ∨
            NativeFailed settings program start failure.fault after.context after.host) := by
  have refused := evaluate_refused_iff settings program start
  rw [ran] at refused
  have guarded (valid : start.context.isValid = true) :
      (Invariant.guarded settings program start).After result after := by
    have kept := Ready.after ⟨read, literals, valid⟩ places
    rwa [ran] at kept
  refine ⟨?_, refused, ?_, ?_⟩
  · rintro rfl
    cases valid : start.context.isValid with
    | true => exact (guarded valid).2
    | false =>
      rw [evaluate_refused valid] at ran
      cases ran
  · intro invalid
    rw [evaluate_refused invalid] at ran
    cases ran
    rfl
  · rintro valid failure rfl broken
    rcases guarded valid with sound | failed
    · rw [sound] at broken
      cases broken
    · exact failed

/-- A native in a slot of a variable, called two programs deep. It binds a variable without
a proper name and fails in its own words. -/
theorem evaluate_guarded_method :
    let spoil : OnHost Transcript Unit := do
      modify fun state => ({ state.1 with
        bindings := Entries.insert "NotAName" .null state.1.bindings }, state.2)
      throw { fault := .reported .unknownType "native failed" }
    let settings : Settings Transcript := { natives := fun _ => spoil }
    let inner : Program := [.token ":$d.f" (.method { name := "d", segments := [.key "f"] })]
    let program : Program := [.token "inner" (.call "inner")]
    let dict : Value := .dict [("f", .function (.native "spoil"))]
    let start : Machine Transcript :=
      { context := { bindings := [("d", dict)], functions := [("inner", .program inner)] }
        host := {} }
    let failure : Failure :=
      { fault := .reported .unknownType "native failed", trail := ["inner", ":$d.f"] }
    let after : Machine Transcript :=
      { context := {
          stack := [dict], bindings := Entries.insert "NotAName" .null [("d", dict)]
          functions := Entries.insert "main" (.program program) [("inner", .program inner)] }
        host := {} }
    PlacesLiterals settings ∧ program.FromLiterals ∧ start.context.FromLiterals ∧
      (evaluate settings program).run start = (.error failure, after) ∧
      NativeFailed settings program start failure.fault after.context after.host := by
  intro spoil settings inner program dict start failure after
  have places : PlacesLiterals settings := by
    intro name context host literals
    refine ⟨literals.stack, fun entry member => ?_, literals.functions⟩
    rcases Entries.mem_insert member with rfl | kept
    · exact (Piece.all_scalar rfl (by decide)).mpr trivial
    · exact literals.bindings entry kept
  have read : program.FromLiterals :=
    .cons (Instruction.fromLiteral_token rfl) .nil
  have called : inner.FromLiterals :=
    .cons (Instruction.fromLiteral_token rfl) .nil
  have native : Piece.All Piece.FromLiterals (.value (.function (.native "spoil"))) :=
    Piece.all_function.mpr ⟨trivial, Discipline.read_body.mpr trivial⟩
  have literals : start.context.FromLiterals := by
    refine ⟨nofun, ?_, ?_⟩
    · simp only [start, List.forall_mem_singleton]
      exact Piece.all_dict.mpr ⟨trivial, by simpa using native⟩
    · simp only [start, List.forall_mem_singleton]
      exact Discipline.read_body.mpr called
  have ran : (evaluate settings program).run start = (.error failure, after) := by
    unfold settings start program failure after inner dict spoil
    rfl
  have valid : start.context.isValid = true := by decide +kernel
  have broken : after.context.isValid = false := by decide +kernel
  obtain ⟨_, _, _, failed⟩ := evaluate_guarded settings places read literals ran
  rcases failed valid failure rfl broken with found | raised
  · cases found
  · exact ⟨places, read, literals, ran, raised⟩

end Machine

end StackScript
