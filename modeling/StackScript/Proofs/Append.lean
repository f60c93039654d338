/-
# StackScript.Proofs.Append — one program after another

A program that is put before another one runs as it does alone: it comes to the same
positions on the same machines, since its own `main` makes no difference where there is
one (`Machine.Comes.append`). If it fails, or reaches a `#return` of its own, the run
is over and the other program is never looked at. If it runs to its end, the other
program goes on from the machine it leaves, as if it were called there. Only a trace
would show the difference, in the positions that it records (`Machine.evaluate_append`).
-/
import StackScript.Host.Basic
import StackScript.Proofs.Tables

namespace StackScript

set_option autoImplicit false

/-- The frame in a program that goes on longer. -/
def Frame.extend {σ : Type} (frame : Frame σ) (rest : Program) : Frame σ where
  program := frame.program ++ rest
  position := frame.position
  instruction := frame.instruction
  machine := frame.machine
  current := by
    obtain ⟨inside, _⟩ := List.getElem?_eq_some_iff.mp frame.current
    rw [List.getElem?_append_left inside, frame.current]

namespace Machine

variable {σ : Type} [Host σ] {settings : Settings σ} {program : Program} {start : Machine σ}

/-! ## What remains of a run -/

/-- From a position that the program comes to, the rest of it decides how it ends. -/
theorem Comes.evaluate_eq {position : Nat} {machine : Machine σ}
    (came : Comes settings program start position machine) :
    (evaluate settings program).run start =
      (((run settings (evaluate settings) position (program.drop position)).run machine).1,
        ((run settings (evaluate settings) position (program.drop position)).run machine).2.left) := by
  induction came with
  | begins valid room =>
    rw [evaluate_entered valid room, List.drop_zero]
  | @goesOn position instruction machine after _ current done ih =>
    obtain ⟨inside, rfl⟩ := List.getElem?_eq_some_iff.mp current
    rw [ih, List.drop_eq_getElem_cons inside, run_next _ done]

/-- A frame that leaves the program is its end. -/
theorem evaluate_left {frame : Frame σ} (reached : frame.Of settings program start)
    {after : Machine σ} (done : frame.Does settings (.ok .leave) after) :
    (evaluate settings program).run start = (.ok (), after.left) := by
  obtain ⟨rfl, came⟩ := reached
  obtain ⟨inside, current⟩ := List.getElem?_eq_some_iff.mp frame.current
  rw [came.evaluate_eq, List.drop_eq_getElem_cons inside, current, run_leave _ done]

/-- A frame that fails is the end of the program. -/
theorem evaluate_failed {frame : Frame σ} (reached : frame.Of settings program start)
    {cause : Failure} {after : Machine σ} (done : frame.Does settings (.error cause) after) :
    (evaluate settings program).run start = (.error (cause.within frame.text), after.left) := by
  obtain ⟨rfl, came⟩ := reached
  obtain ⟨inside, current⟩ := List.getElem?_eq_some_iff.mp frame.current
  rw [came.evaluate_eq, List.drop_eq_getElem_cons inside, current, run_error _ done]
  rfl

/-! ## Leaving -/

/-- The program, called on `start`, comes to a `#return` of its own. -/
def Returns (settings : Settings σ) (program : Program) (start : Machine σ) : Prop :=
  ∃ frame : Frame σ, frame.Of settings program start ∧ frame.instruction.Leaves

theorem leaves_of_does {frame : Frame σ} {after : Machine σ}
    (done : frame.Does settings (.ok .leave) after) : frame.instruction.Leaves := by
  cases done.outcome with
  | plain plain => exact plain.ends.mp rfl

theorem does_leave (settings : Settings σ) {frame : Frame σ} (leaves : frame.instruction.Leaves) :
    frame.Does settings (.ok .leave) (frame.now settings) := by
  obtain ⟨text, same⟩ := leaves
  rw [Frame.Does, same]
  rfl

theorem does_exit (settings : Settings σ) {frame : Frame σ} (exits : frame.instruction.Exits) :
    frame.Does settings (.error { fault := .terminated }) (frame.now settings) := by
  obtain ⟨text, same⟩ := exits
  rw [Frame.Does, same]
  rfl

/-! ## A program before another one -/

section Append

variable {first second : Program}

/-- Inside the longer program, the first part comes where it comes alone. -/
theorem Comes.append (main : start.context.HasMain) {position : Nat} {machine : Machine σ}
    (came : Comes settings first start position machine) :
    Comes settings (first ++ second) start position machine := by
  induction came with
  | begins valid room =>
    have same : start.prepared first = start.prepared (first ++ second) :=
      (prepared_eq main first).trans (prepared_eq main (first ++ second)).symm
    rw [same]
    exact .begins valid room
  | goesOn _ current done ih =>
    obtain ⟨inside, _⟩ := List.getElem?_eq_some_iff.mp current
    refine ih.goesOn ?_ done
    rwa [List.getElem?_append_left inside]

/-- A frame of the first part is a frame of the longer program. -/
theorem of_extend (main : start.context.HasMain) {frame : Frame σ}
    (reached : frame.Of settings first start) :
    (frame.extend second).Of settings (first ++ second) start := by
  obtain ⟨rfl, came⟩ := reached
  exact ⟨rfl, came.append main⟩

/-- The program, called on `start`, fails or comes to a `#return` of its own. -/
def Stops (settings : Settings σ) (program : Program) (start : Machine σ) : Prop :=
  (∃ failure, ((evaluate settings program).run start).1 = .error failure) ∨
    Returns settings program start

/-- A first part that stops is all of the run. -/
theorem Stops.evaluate_longer (stops : Stops settings first start)
    (valid : start.context.isValid = true) (main : start.context.HasMain) (second : Program) :
    (evaluate settings (first ++ second)).run start = (evaluate settings first).run start := by
  rcases stops with ⟨failure, failed⟩ | ⟨frame, reached, leaves⟩
  · have ended := evaluate_ended settings first start
    rw [failed] at ended
    generalize ((evaluate settings first).run start).2 = after at ended
    cases ended with
    | refused invalid =>
      rw [valid] at invalid
      cases invalid
    | full valid full =>
      rw [evaluate_full valid full, evaluate_full valid full, prepared_eq main, prepared_eq main]
    | failed reached done =>
      rw [evaluate_failed reached done]
      exact evaluate_failed (of_extend main reached) done
  · have done := does_leave settings leaves
    rw [evaluate_left reached done]
    exact evaluate_left (of_extend main reached) done

/-- A program that succeeds and does not return has come to its end. -/
theorem comes_of_ok (succeeded : ((evaluate settings program).run start).1 = .ok ())
    (stays : ¬ Returns settings program start) :
    ∃ machine, Comes settings program start program.length machine ∧
      ((evaluate settings program).run start).2 = machine.left := by
  have ended := evaluate_ended settings program start
  rw [succeeded] at ended
  generalize ((evaluate settings program).run start).2 = after at ended
  cases ended with
  | finished came => exact ⟨_, came, rfl⟩
  | left reached done => exact absurd ⟨_, reached, leaves_of_does done⟩ stays

/-- A program whose last instruction ends the program or the session stops, there or before. -/
theorem stops_of_last {last : Instruction} (isLast : program.getLast? = some last)
    (ends : last.Leaves ∨ last.Exits) : Stops settings program start := by
  cases ran : ((evaluate settings program).run start).1 with
  | error failure => exact .inl ⟨failure, ran⟩
  | ok _ =>
    by_cases returns : Returns settings program start
    · exact .inr returns
    · obtain ⟨final, came, _⟩ := comes_of_ok ran returns
      rw [List.getLast?_eq_getElem?] at isLast
      generalize size : program.length = length at came isLast
      cases came with
      | begins _ _ =>
        rw [List.length_eq_zero_iff.mp size] at isLast
        cases isLast
      | @goesOn position instruction machine _ came current done =>
        obtain rfl : instruction = last := by
          rw [Nat.add_sub_cancel, current] at isLast
          exact Option.some.inj isLast
        let frame : Frame σ := ⟨program, position, instruction, machine, current⟩
        have next : frame.Does settings (.ok .next) final := done
        rcases ends with leaves | exits
        · exact .inr ⟨frame, ⟨rfl, came⟩, leaves⟩
        · have exited : frame.Does settings _ _ := does_exit settings exits
          rw [Frame.Does, next] at exited
          cases exited

/-! ## The second part -/

theorem run_position (off : settings.tracing = false) (call : Program → Action σ Unit)
    (position other : Nat) (program : Program) :
    run settings call position program = run settings call other program := by
  induction program generalizing position other with
  | nil => rfl
  | cons instruction rest ih =>
    have same : observe settings position instruction = observe settings other instruction := by
      simp [observe, off]
    rw [run, run, same, ih (position + 1) (other + 1)]

/-- Behind a first part that comes to its end, the second part is called. -/
theorem evaluate_append_of_comes (standard : settings.natives = Native.standard)
    (off : settings.tracing = false) (ready : Ready first start) (main : start.context.HasMain)
    {machine : Machine σ} (came : Comes settings first start first.length machine) :
    (evaluate settings (first ++ second)).run start = (evaluate settings second).run machine.left := by
  have finished : (evaluate settings first).run start = (.ok (), machine.left) := by
    rw [came.evaluate_eq, List.drop_length]
    rfl
  have valid : machine.left.context.isValid = true := by
    have kept := ready.after (standard_placesLiterals standard)
    rw [finished] at kept
    exact kept.2
  have still : machine.left.context.HasMain := by
    have has : ((evaluate settings first).run start).2.context.Has _ _ :=
      evaluate_has standard ready.valid
    rw [finished, main.bindMain_eq] at has
    rwa [Context.HasMain, has.functions]
  have room : machine.left.depth < settings.limit := by
    show machine.depth - 1 < settings.limit
    rw [came.depth]
    exact came.entry.2
  have inside : machine.left.entered = machine := by
    have level : machine.depth - 1 + 1 = machine.depth := by
      rw [came.depth]
      rfl
    rw [entered, left, level]
  rw [(came.append main).evaluate_eq, List.drop_left, evaluate_entered valid room, prepared_eq still,
    inside, run_position off _ first.length 0]

/-- Behind a first part that comes to its end, a malformed instruction fails and does nothing. -/
theorem evaluate_append_malformed (off : settings.tracing = false) (main : start.context.HasMain)
    {machine : Machine σ} (came : Comes settings first start first.length machine) {tree : Json}
    {fault : Fault} (malformed : second.head? = some (.invalid tree fault))
    (ordinary : fault.Ordinary) :
    (evaluate settings (first ++ second)).run start =
      (.error { fault, trail := [(Instruction.invalid tree fault).text] }, machine.left) := by
  have current : (first ++ second)[first.length]? = some (.invalid tree fault) := by
    rw [List.getElem?_append_right (Nat.le_refl _), Nat.sub_self, ← List.head?_eq_getElem?, malformed]
  let frame : Frame σ := ⟨first ++ second, first.length, .invalid tree fault, machine, current⟩
  have reached : frame.Of settings (first ++ second) start := ⟨rfl, came.append main⟩
  have done : frame.Does settings (.error { fault }) (frame.now settings) := rfl
  have now : frame.now settings = machine := by
    simp [Frame.now, observed, off, frame]
  have shown : Failure.within { fault } frame.text = { fault, trail := [frame.text] } := by
    simp [Failure.within, Fault.terminates, ordinary.kind_ne.1]
  rw [evaluate_failed reached done, now, shown]
  rfl

end Append

/-- **A program after another one.** Let the first program run where `main` is bound, without
a trace. If it fails, or reaches a `#return` of its own, then the program behind it has no
effect: the two do what the first does alone. This is so in particular if the last
instruction of the first ends the program or the session. Otherwise the two do together what
they do one after the other. What the first did then stays done when the second fails, and
is all that is done if the second begins with a malformed instruction. -/
theorem evaluate_append (limit : Nat) {first second : Program} {start : Machine σ}
    (readFirst : first.FromLiterals) (readSecond : second.FromLiterals)
    (literals : start.context.FromLiterals) (valid : start.context.isValid = true)
    (main : start.context.HasMain) :
    let settings : Settings σ := { natives := Native.standard, limit, tracing := false }
    let alone := (evaluate settings first).run start
    let together := (evaluate settings (first ++ second)).run start
    (∀ failure, alone.1 = .error failure → together = alone) ∧
      (Returns settings first start → alone.1 = .ok () ∧ together = alone) ∧
      (alone.1 = .ok () → ¬ Returns settings first start →
        together = (evaluate settings second).run alone.2) ∧
      (∀ last, first.getLast? = some last → last.Leaves ∨ last.Exits → together = alone) ∧
      (∀ tree fault, second.head? = some (.invalid tree fault) → alone.1 = .ok () →
        ¬ Returns settings first start →
          together =
            (.error { fault, trail := [(Instruction.invalid tree fault).text] }, alone.2)) := by
  intro settings alone together
  have standard : settings.natives = Native.standard := rfl
  have off : settings.tracing = false := rfl
  have ready : Ready first start := ⟨readFirst, literals, valid⟩
  have stopped (stops : Stops settings first start) : together = alone :=
    stops.evaluate_longer valid main second
  have follows (succeeded : alone.1 = .ok ()) (stays : ¬ Returns settings first start) :
      together = (evaluate settings second).run alone.2 := by
    obtain ⟨machine, came, left⟩ := comes_of_ok succeeded stays
    show _ = (evaluate settings second).run ((evaluate settings first).run start).2
    rw [left]
    exact evaluate_append_of_comes standard off ready main came
  refine ⟨fun failure failed => stopped (.inl ⟨failure, failed⟩), ?_, follows, ?_, ?_⟩
  · intro returns
    refine ⟨?_, stopped (.inr returns)⟩
    obtain ⟨frame, reached, leaves⟩ := returns
    show ((evaluate settings first).run start).1 = _
    rw [evaluate_left reached (does_leave settings leaves)]
  · intro last isLast ends
    exact stopped (stops_of_last isLast ends)
  · intro tree fault malformed succeeded stays
    obtain ⟨machine, came, left⟩ := comes_of_ok succeeded stays
    have ordinary : fault.Ordinary := by
      obtain ⟨origin, made⟩ :=
        Program.fromLiterals_iff.mp readSecond _ (List.mem_of_mem_head? malformed)
      exact Instruction.ofLiteral_invalid made.symm
    show _ = (_, ((evaluate settings first).run start).2)
    rw [left]
    exact evaluate_append_malformed off main came malformed ordinary

/-- A `#return` inside a function is none of the program that calls it. The program goes on,
binds a variable, and the one behind it finds it. -/
theorem evaluate_append_called :
    let settings : Settings Transcript := { natives := Native.standard, limit := 2, tracing := false }
    let inner : Program := [.token "#return" (.control .leave), .token "+" (.control .add)]
    let first : Program :=
      [.token "inner" (.call "inner"), .token "&x" (.pop { name := "x", segments := [] })]
    let second : Program :=
      [.token "$x" (.push { name := "x", segments := [] }), .token "+" (.control .add)]
    let start : Machine Transcript :=
      { context := { stack := [.null], functions := [("inner", .program inner), ("main", .program [])] }
        host := {} }
    let after : Machine Transcript :=
      { start with context := { start.context with stack := [], bindings := [("x", .null)] } }
    let failure : Failure := { fault := .stackUnderflow, trail := ["+"] }
    first.FromLiterals ∧ second.FromLiterals ∧ start.context.FromLiterals ∧
      start.context.isValid = true ∧ start.context.HasMain ∧
      (evaluate settings first).run start = (.ok (), after) ∧ ¬ Returns settings first start ∧
      (evaluate settings second).run after = (.error failure, after) ∧
      (evaluate settings (first ++ second)).run start = (.error failure, after) := by
  intro settings inner first second start after failure
  have readFirst : first.FromLiterals :=
    .cons (Instruction.fromLiteral_token rfl) (.cons (Instruction.fromLiteral_token rfl) .nil)
  have readSecond : second.FromLiterals :=
    .cons (Instruction.fromLiteral_token rfl) (.cons (Instruction.fromLiteral_token rfl) .nil)
  have readInner : inner.FromLiterals :=
    .cons (Instruction.fromLiteral_token rfl) (.cons (Instruction.fromLiteral_token rfl) .nil)
  have literals : start.context.FromLiterals := by
    refine ⟨?_, nofun, ?_⟩
    · simp only [start, List.forall_mem_singleton]
      exact (Piece.all_scalar rfl (by decide)).mpr trivial
    · simp only [start, List.forall_mem_cons]
      exact ⟨Discipline.read_body.mpr readInner, Discipline.read_body.mpr Program.FromLiterals.nil,
        nofun⟩
  have valid : start.context.isValid = true := by decide +kernel
  have main : start.context.HasMain := ⟨.program [], rfl⟩
  have ranFirst : (evaluate settings first).run start = (.ok (), after) := by
    unfold settings first after start inner
    rfl
  have ranSecond : (evaluate settings second).run after = (.error failure, after) := by
    unfold settings second after start failure inner
    rfl
  have stays : ¬ Returns settings first start := by
    rintro ⟨frame, reached, text, leaves⟩
    have member := reached.mem
    simp [first, leaves] at member
  obtain ⟨_, _, follows, _⟩ := evaluate_append 2 readFirst readSecond literals valid main
  have together := follows (congrArg Prod.fst ranFirst) stays
  have reached : ((evaluate settings first).run start).2 = after := congrArg Prod.snd ranFirst
  rw [reached, ranSecond] at together
  exact ⟨readFirst, readSecond, literals, valid, main, ranFirst, stays, ranSecond, together⟩

end Machine

end StackScript
