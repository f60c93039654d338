/-
# StackScript.Proofs.Frame — the course of a run

A program that runs comes to its instructions one after the other. `Machine.Comes`
says to which position it comes, and on which machine; a `Frame` is such a moment, and
`Machine.Ended` lists the ways in which a run can end (`Machine.evaluate_ended`). A
frame that calls a program has the frames of that program inside it
(`Machine.Dispatches`).

A relation that is `Machine.Lasting` holds between the machine before a run and the
machine after it, whatever happened in between. That the depth is the same is one.

What holds before every instruction of a run is stated by a `Machine.Invariant`. Its
laws concern single steps, and `Machine.Invariant.evaluate` carries it through the run,
whatever the depth of the calls and however the run ends.
-/
import StackScript.Proofs.Dispatch

namespace StackScript

set_option autoImplicit false

namespace Machine

variable {σ : Type}

/-! ## Before a program, and before an instruction -/

/-- The machine whose context has its `main`. -/
def prepared (machine : Machine σ) (program : Program) : Machine σ :=
  { machine with context := machine.context.bindMain program }

/-- The machine with a record of the instruction in its trace, if tracing is on. -/
def observed (machine : Machine σ) (settings : Settings σ) (position : Nat)
    (instruction : Instruction) : Machine σ :=
  if settings.tracing then
    let record : TraceRecord σ :=
      { depth := machine.depth, position, instruction
        stack := machine.context.stack, host := machine.host }
    { machine with newestTrace := record :: machine.newestTrace }
  else machine

theorem run_prepare (program : Program) (machine : Machine σ) :
    (prepare program).run machine =
      if machine.context.isValid then (.ok (), machine.prepared program)
      else (.error { fault := .invalidApi }, machine) := by
  rw [prepare, Work.run_bind_ok (Action.run_getContext machine)]
  split <;> rfl

theorem run_observe (settings : Settings σ) (position : Nat) (instruction : Instruction)
    (machine : Machine σ) :
    (observe settings position instruction).run machine =
      (.ok (), machine.observed settings position instruction) := by
  unfold observe observed
  split <;> rfl

section Observed

variable (machine : Machine σ) (settings : Settings σ) (position : Nat) (instruction : Instruction)

@[simp] theorem observed_context :
    (machine.observed settings position instruction).context = machine.context := by
  unfold observed
  split <;> rfl

@[simp] theorem observed_host :
    (machine.observed settings position instruction).host = machine.host := by
  unfold observed
  split <;> rfl

@[simp] theorem observed_depth :
    (machine.observed settings position instruction).depth = machine.depth := by
  unfold observed
  split <;> rfl

end Observed

variable [Host σ] (settings : Settings σ)

/-! ## One instruction after the other -/

section Run

variable {settings} {call : Program → Action σ Unit} {position : Nat} {instruction : Instruction}
  {machine after : Machine σ} (rest : Program)

theorem run_next (done : (execute settings call instruction).run
      (machine.observed settings position instruction) = (.ok .next, after)) :
    (run settings call position (instruction :: rest)).run machine =
      (run settings call (position + 1) rest).run after := by
  rw [run, Work.run_bind_ok (run_observe ..), Work.run_bind, Action.run_within, done]
  rfl

theorem run_leave (done : (execute settings call instruction).run
      (machine.observed settings position instruction) = (.ok .leave, after)) :
    (run settings call position (instruction :: rest)).run machine = (.ok (), after) := by
  rw [run, Work.run_bind_ok (run_observe ..), Work.run_bind, Action.run_within, done]
  rfl

theorem run_error {cause : Failure} (done : (execute settings call instruction).run
      (machine.observed settings position instruction) = (.error cause, after)) :
    (run settings call position (instruction :: rest)).run machine =
      (.error (cause.within instruction.text), after) := by
  rw [run, Work.run_bind_ok (run_observe ..), Work.run_bind, Action.run_within, done]
  rfl

end Run

/-! ## From the beginning of a run to its end -/

/-- A relation between an earlier and a later machine that holds across everything a run
does, whatever the natives do to context and host. -/
structure Lasting (settings : Settings σ) (kept : Machine σ → Machine σ → Prop) : Prop where
  trans : ∀ {first second third : Machine σ}, kept first second → kept second third →
    kept first third
  steady : ∀ {binds : String → Prop} {before after : Machine σ}, Steady binds before after →
    kept before after
  changed : ∀ (machine : Machine σ) (state : Context × σ), kept machine (machine.changed state)
  observed : ∀ (machine : Machine σ) (position : Nat) (instruction : Instruction),
    kept machine (machine.observed settings position instruction)
  prepared : ∀ (machine : Machine σ) (program : Program), kept machine (machine.prepared program)
  inside : ∀ {machine after : Machine σ}, kept machine.entered after → kept machine after.left

/-- The relation holds across calls of programs. -/
def Across (kept : Machine σ → Machine σ → Prop) (call : Program → Action σ Unit) : Prop :=
  ∀ program machine, kept machine ((call program).run machine).2

namespace Lasting

variable {settings : Settings σ} {kept : Machine σ → Machine σ → Prop}
  {call : Program → Action σ Unit} (lasting : Lasting settings kept)

include lasting

omit [Host σ] in
theorem refl (machine : Machine σ) : kept machine machine := by
  have steady : Steady (fun _ => True) machine machine := .refl machine
  exact lasting.steady steady

omit [Host σ] in
theorem invoke (calls : Across kept call) (body : Body) (machine : Machine σ) :
    kept machine ((Machine.invoke settings call body).run machine).2 := by
  cases body with
  | program program => exact calls program machine
  | native name =>
    rw [run_invoke_native]
    rcases (settings.natives name).run (machine.context, machine.host) with ⟨_ | _, state⟩
    · exact lasting.changed machine state
    · have changed := lasting.changed machine state
      cases valid : state.1.isValid <;> simpa [valid] using changed

theorem execute (calls : Across kept call) (instruction : Instruction) (machine : Machine σ) :
    kept machine ((Machine.execute settings call instruction).run machine).2 := by
  rcases execute_cases instruction machine with
    ⟨result, after, plain, runs⟩ | ⟨body, next, invokes, runs⟩
  · rw [runs]
    exact lasting.steady plain.steady
  · have begun := lasting.steady (invokes.steady fun _ => True)
    have invoked := lasting.trans begun (lasting.invoke calls body next)
    rw [runs, Work.run_bind]
    rcases ran : (Machine.invoke settings call body).run next with ⟨_ | _, after⟩ <;>
      rw [ran] at invoked <;> exact invoked

theorem step (calls : Across kept call) (position : Nat) (instruction : Instruction)
    (machine : Machine σ) :
    kept machine ((Machine.execute settings call instruction).run
      (machine.observed settings position instruction)).2 :=
  lasting.trans (lasting.observed machine position instruction)
    (lasting.execute calls instruction _)

theorem run (calls : Across kept call) (position : Nat) (program : Program) (machine : Machine σ) :
    kept machine ((Machine.run settings call position program).run machine).2 := by
  induction program generalizing position machine with
  | nil => exact lasting.refl machine
  | cons instruction rest ih =>
    have executed := lasting.step calls position instruction machine
    rcases done : (Machine.execute settings call instruction).run
      (machine.observed settings position instruction) with ⟨_ | flow, after⟩ <;> rw [done] at executed
    · rw [run_error rest done]
      exact executed
    · cases flow with
      | next =>
        rw [run_next rest done]
        exact lasting.trans executed (ih (position + 1) after)
      | leave =>
        rw [run_leave rest done]
        exact executed

theorem evaluateWithin (room : Nat) : Across kept (Machine.evaluateWithin settings room) := by
  intro program machine
  have prepared := lasting.prepared machine program
  cases room with
  | zero =>
    rw [Machine.evaluateWithin, Work.run_bind, run_prepare]
    cases machine.context.isValid with
    | false => exact lasting.refl machine
    | true => exact prepared
  | succ room =>
    rw [Machine.evaluateWithin, Work.run_bind, run_prepare]
    cases machine.context.isValid with
    | false => exact lasting.refl machine
    | true =>
      -- a program that is called has less room
      have ran := lasting.run (evaluateWithin room) 0 program (machine.prepared program).entered
      simp only [if_true, Action.run_deeper]
      exact lasting.trans prepared (lasting.inside ran)

/-- **What lasts holds between the beginning and the end of a run**, however the run ends. -/
theorem evaluate : Across kept (Machine.evaluate settings) := fun program machine =>
  lasting.evaluateWithin (settings.limit - machine.depth) program machine

end Lasting

omit [Host σ] in
/-- The depth after a program is the depth before it. -/
theorem lasting_depth : Lasting settings fun before after => after.depth = before.depth where
  trans first second := second.trans first
  steady steady := steady.depth
  changed _ _ := rfl
  observed machine position instruction := observed_depth machine settings position instruction
  prepared _ _ := rfl
  inside same := congrArg (· - 1) same

omit [Host σ] in
/-- Without tracing, the trace after a program is the trace before it. -/
theorem lasting_trace (off : settings.tracing = false) :
    Lasting settings fun before after => after.newestTrace = before.newestTrace where
  trans first second := second.trans first
  steady steady := steady.trace
  changed _ _ := rfl
  observed _ _ _ := by simp [observed, off]
  prepared _ _ := rfl
  inside same := same

/-- Calling a program leaves the depth as it was. -/
abbrev Level (call : Program → Action σ Unit) : Prop :=
  Across (fun before after => after.depth = before.depth) call

theorem evaluateWithin_level (room : Nat) : Level (evaluateWithin settings room) :=
  (lasting_depth settings).evaluateWithin room

/-- **The depth after a program is the depth before it**, however the program ends. -/
theorem evaluate_level : Level (evaluate settings) :=
  (lasting_depth settings).evaluate

/-! ## A program from the inside -/

section Calls

variable {call call' : Program → Action σ Unit}

omit [Host σ] in
theorem invoke_congr (body : Body) {machine : Machine σ}
    (same : ∀ program, (call program).run machine = (call' program).run machine) :
    (invoke settings call body).run machine = (invoke settings call' body).run machine := by
  cases body with
  | program program => exact same program
  | native name => rw [run_invoke_native, run_invoke_native]

/-- Calls are made at the depth of the instruction. -/
theorem execute_congr (instruction : Instruction) (machine : Machine σ)
    (same : ∀ program next, next.depth = machine.depth →
      (call program).run next = (call' program).run next) :
    (execute settings call instruction).run machine =
      (execute settings call' instruction).run machine := by
  rcases execute_cases instruction machine with ⟨_, _, _, runs⟩ | ⟨body, next, invokes, runs⟩
  · rw [runs, runs]
  · have level := (invokes.steady fun _ => True).depth
    rw [runs, runs, Work.run_bind, Work.run_bind,
      invoke_congr settings body fun program => same program next level]

theorem run_congr (level : Level call) (position : Nat) (program : Program) {machine : Machine σ}
    (same : ∀ program next, next.depth = machine.depth →
      (call program).run next = (call' program).run next) :
    (run settings call position program).run machine =
      (run settings call' position program).run machine := by
  induction program generalizing position machine with
  | nil => rfl
  | cons instruction rest ih =>
    have executed := (lasting_depth settings).step level position instruction machine
    have congr := execute_congr settings instruction
      (machine.observed settings position instruction) (by simpa using same)
    rcases done : (execute settings call instruction).run
      (machine.observed settings position instruction) with ⟨_ | flow, after⟩ <;>
      rw [done] at executed congr
    · rw [run_error rest done, run_error rest congr.symm]
    · cases flow with
      | next =>
        rw [run_next rest done, run_next rest congr.symm]
        exact ih (position + 1) fun program next level => same program next (level.trans executed)
      | leave => rw [run_leave rest done, run_leave rest congr.symm]

end Calls

variable {settings} {program : Program} {start : Machine σ}

theorem evaluate_refused (invalid : start.context.isValid = false) :
    (evaluate settings program).run start = (.error { fault := .invalidApi }, start) := by
  show (evaluateWithin settings (settings.limit - start.depth) program).run start = _
  cases settings.limit - start.depth <;>
    rw [evaluateWithin, Work.run_bind, run_prepare, invalid] <;> rfl

theorem evaluate_full (valid : start.context.isValid = true) (full : settings.limit ≤ start.depth) :
    (evaluate settings program).run start =
      (.error { fault := .callDepthExceeded settings.limit }, start.prepared program) := by
  show (evaluateWithin settings (settings.limit - start.depth) program).run start = _
  rw [Nat.sub_eq_zero_of_le full, evaluateWithin, Work.run_bind, run_prepare, valid]
  rfl

/-- A program runs one deeper than it was called, and its calls are evaluations again. -/
theorem evaluate_entered (valid : start.context.isValid = true)
    (room : start.depth < settings.limit) :
    (evaluate settings program).run start =
      (((run settings (evaluate settings) 0 program).run (start.prepared program).entered).1,
        ((run settings (evaluate settings) 0 program).run (start.prepared program).entered).2.left) := by
  obtain ⟨rest, fits⟩ : ∃ rest, settings.limit - start.depth = rest + 1 :=
    ⟨settings.limit - start.depth - 1, by omega⟩
  have same : ∀ inner next, next.depth = (start.prepared program).entered.depth →
      (evaluateWithin settings rest inner).run next = (evaluate settings inner).run next := by
    intro inner next deeper
    have level : next.depth = start.depth + 1 := deeper
    have left : settings.limit - next.depth = rest := by omega
    show _ = (evaluateWithin settings (settings.limit - next.depth) inner).run next
    rw [left]
  have ran := run_congr settings (evaluateWithin_level settings rest) 0 program same
  show (evaluateWithin settings (settings.limit - start.depth) program).run start = _
  rw [fits, evaluateWithin, Work.run_bind, run_prepare, valid, ← ran]
  simp only [if_true, Action.run_deeper]
  rcases (run settings (evaluateWithin settings rest) 0 program).run (start.prepared program).entered with
    ⟨_ | _, _⟩ <;> rfl

/-! ## The course of a program -/

/-- The program, called on `start`, comes to a position, and that on this machine. -/
inductive Comes (settings : Settings σ) (program : Program) (start : Machine σ) :
    Nat → Machine σ → Prop
  | begins (valid : start.context.isValid = true) (room : start.depth < settings.limit) :
      Comes settings program start 0 (start.prepared program).entered
  | goesOn {position : Nat} {instruction : Instruction} {machine after : Machine σ}
      (came : Comes settings program start position machine)
      (current : program[position]? = some instruction)
      (done : (execute settings (evaluate settings) instruction).run
        (machine.observed settings position instruction) = (.ok .next, after)) :
      Comes settings program start (position + 1) after

namespace Comes

variable {position : Nat} {machine : Machine σ}

theorem entry (came : Comes settings program start position machine) :
    start.context.isValid = true ∧ start.depth < settings.limit := by
  induction came with
  | begins valid room => exact ⟨valid, room⟩
  | goesOn _ _ _ ih => exact ih

theorem position_le (came : Comes settings program start position machine) :
    position ≤ program.length := by
  cases came with
  | begins _ _ => exact Nat.zero_le _
  | goesOn _ current _ => exact (List.getElem?_eq_some_iff.mp current).1

theorem depth (came : Comes settings program start position machine) :
    machine.depth = start.depth + 1 := by
  induction came with
  | begins _ _ => rfl
  | @goesOn position instruction machine after _ _ done ih =>
    have executed :=
      (lasting_depth settings).step (evaluate_level settings) position instruction machine
    rw [done] at executed
    exact executed.trans ih

end Comes

end Machine

/-- A moment of a run: a program that has come to one of its instructions. -/
structure Frame (σ : Type) where
  program : Program
  position : Nat
  instruction : Instruction
  /-- The machine that the instruction finds. -/
  machine : Machine σ
  current : program[position]? = some instruction

namespace Frame

variable {σ : Type}

/-- The text of the instruction, as a failure records it. -/
def text (frame : Frame σ) : String :=
  frame.instruction.text

theorem instruction_mem (frame : Frame σ) : frame.instruction ∈ frame.program :=
  List.mem_of_getElem? frame.current

/-- The machine on which the instruction is executed. -/
def now (settings : Settings σ) (frame : Frame σ) : Machine σ :=
  frame.machine.observed settings frame.position frame.instruction

@[simp] theorem now_context (settings : Settings σ) (frame : Frame σ) :
    (frame.now settings).context = frame.machine.context :=
  Machine.observed_context ..

@[simp] theorem now_host (settings : Settings σ) (frame : Frame σ) :
    (frame.now settings).host = frame.machine.host :=
  Machine.observed_host ..

@[simp] theorem now_depth (settings : Settings σ) (frame : Frame σ) :
    (frame.now settings).depth = frame.machine.depth :=
  Machine.observed_depth ..

variable [Host σ]

/-- The program, called on `start`, comes to the frame. -/
def Of (settings : Settings σ) (program : Program) (start : Machine σ) (frame : Frame σ) : Prop :=
  frame.program = program ∧ Machine.Comes settings program start frame.position frame.machine

theorem Of.mem {settings : Settings σ} {program : Program} {start : Machine σ} {frame : Frame σ}
    (reached : frame.Of settings program start) : frame.instruction ∈ program :=
  reached.1 ▸ frame.instruction_mem

/-- What the instruction of the frame does. -/
def Does (settings : Settings σ) (frame : Frame σ) (result : Except Failure Flow)
    (after : Machine σ) : Prop :=
  (Machine.execute settings (Machine.evaluate settings) frame.instruction).run (frame.now settings) =
    (result, after)

/-- The instruction of the frame calls the body, which starts on the machine. -/
def Invokes (settings : Settings σ) (frame : Frame σ) (body : Body) (next : Machine σ) : Prop :=
  Machine.Invokes (frame.now settings) frame.instruction body next

/-- A call starts one deeper than the program that makes it. -/
theorem Of.depth {settings : Settings σ} {program : Program} {start next : Machine σ}
    {frame : Frame σ} {body : Body} (reached : frame.Of settings program start)
    (invokes : frame.Invokes settings body next) : next.depth = start.depth + 1 := by
  have level := (Machine.Invokes.steady invokes fun _ => True).depth
  simpa [reached.2.depth] using level

/-- A frame fails when the function fails that it calls. -/
theorem Invokes.does_error {settings : Settings σ} {frame : Frame σ} {body : Body}
    {next after : Machine σ} {cause : Failure} (invokes : frame.Invokes settings body next)
    (ran : (Machine.invoke settings (Machine.evaluate settings) body).run next =
      (.error cause, after)) : frame.Does settings (.error cause) after := by
  rw [Does, Machine.Invokes.runs invokes, Work.run_bind_error ran]

/-- What the instruction of a frame can come to: what it does by itself, or what the function
does that it calls. -/
inductive Outcome (settings : Settings σ) (frame : Frame σ) :
    Except Failure Flow → Machine σ → Prop
  | plain {result : Except Failure Flow} {after : Machine σ}
      (plain : Machine.Plain frame.instruction (frame.now settings) result after) :
      Outcome settings frame result after
  | returned {body : Body} {next after : Machine σ} (invokes : frame.Invokes settings body next)
      (ran : (Machine.invoke settings (Machine.evaluate settings) body).run next = (.ok (), after)) :
      Outcome settings frame (.ok .next) after
  | thrown {body : Body} {next after : Machine σ} {cause : Failure}
      (invokes : frame.Invokes settings body next)
      (ran : (Machine.invoke settings (Machine.evaluate settings) body).run next =
        (.error cause, after)) :
      Outcome settings frame (.error cause) after

theorem Does.outcome {settings : Settings σ} {frame : Frame σ} {result : Except Failure Flow}
    {after : Machine σ} (done : frame.Does settings result after) :
    frame.Outcome settings result after := by
  unfold Does at done
  rcases Machine.execute_cases frame.instruction (frame.now settings) with
    ⟨_, _, plain, runs⟩ | ⟨body, next, invokes, runs⟩
  · rw [runs] at done
    cases done
    exact .plain plain
  · rw [runs, Work.run_bind] at done
    rcases ran : (Machine.invoke settings (Machine.evaluate settings) body).run next with ⟨_ | _, _⟩ <;>
      rw [ran] at done <;> cases done
    · exact .thrown invokes ran
    · exact .returned invokes ran

end Frame

namespace Machine

variable {σ : Type} [Host σ] {settings : Settings σ} {program : Program} {start : Machine σ}

/-- How the evaluation of a program on `start` ends. -/
inductive Ended (settings : Settings σ) (program : Program) (start : Machine σ) :
    Except Failure Unit → Machine σ → Prop
  | refused (invalid : start.context.isValid = false) :
      Ended settings program start (.error { fault := .invalidApi }) start
  | full (valid : start.context.isValid = true) (full : settings.limit ≤ start.depth) :
      Ended settings program start (.error { fault := .callDepthExceeded settings.limit })
        (start.prepared program)
  | finished {machine : Machine σ} (came : Comes settings program start program.length machine) :
      Ended settings program start (.ok ()) machine.left
  | left {frame : Frame σ} {after : Machine σ} (reached : frame.Of settings program start)
      (done : frame.Does settings (.ok .leave) after) :
      Ended settings program start (.ok ()) after.left
  | failed {frame : Frame σ} {cause : Failure} {after : Machine σ}
      (reached : frame.Of settings program start) (done : frame.Does settings (.error cause) after) :
      Ended settings program start (.error (cause.within frame.text)) after.left

theorem run_ended {position : Nat} {machine : Machine σ} {rest : Program}
    (came : Comes settings program start position machine) (still : program.drop position = rest) :
    Ended settings program start ((run settings (evaluate settings) position rest).run machine).1
      ((run settings (evaluate settings) position rest).run machine).2.left := by
  induction rest generalizing position machine with
  | nil =>
    have reached : program.length ≤ position := List.drop_eq_nil_iff.mp still
    obtain rfl : position = program.length := by
      have := came.position_le
      omega
    exact .finished came
  | cons instruction rest ih =>
    have current : program[position]? = some instruction := by
      rw [← List.head?_drop, still]
      rfl
    have later : program.drop (position + 1) = rest := by
      rw [← List.tail_drop, still]
      rfl
    let frame : Frame σ := ⟨program, position, instruction, machine, current⟩
    have reached : frame.Of settings program start := ⟨rfl, came⟩
    rcases done : (execute settings (evaluate settings) instruction).run
      (machine.observed settings position instruction) with ⟨cause | flow, after⟩
    · rw [run_error rest done]
      exact .failed reached done
    · cases flow with
      | next =>
        rw [run_next rest done]
        exact ih (came.goesOn current done) later
      | leave =>
        rw [run_leave rest done]
        exact .left reached done

/-- **Every evaluation ends in one of these ways.** -/
theorem evaluate_ended (settings : Settings σ) (program : Program) (start : Machine σ) :
    Ended settings program start ((evaluate settings program).run start).1
      ((evaluate settings program).run start).2 := by
  cases valid : start.context.isValid with
  | false =>
    rw [evaluate_refused valid]
    exact .refused valid
  | true =>
    by_cases room : start.depth < settings.limit
    · rw [evaluate_entered valid room]
      exact run_ended (.begins valid room) List.drop_zero
    · rw [evaluate_full valid (Nat.le_of_not_lt room)]
      exact .full valid (Nat.le_of_not_lt room)

/-- The evaluation of the program on `start` comes to the frame, in the program itself or in
one that it calls, at any depth. -/
inductive Dispatches (settings : Settings σ) : Program → Machine σ → Frame σ → Prop
  | own {program : Program} {start : Machine σ} {frame : Frame σ}
      (reached : frame.Of settings program start) : Dispatches settings program start frame
  | called {program inner : Program} {start next : Machine σ} {outer frame : Frame σ}
      (reached : outer.Of settings program start)
      (invokes : outer.Invokes settings (.program inner) next)
      (dispatched : Dispatches settings inner next frame) : Dispatches settings program start frame

/-! ## Invariants -/

/-- What is said of the machine throughout a run. It concerns the context and the host. -/
structure Invariant (σ : Type) where
  /-- The frames that the run comes to. -/
  during : Frame σ → Prop
  /-- The instructions of the programs that run. -/
  allows : Instruction → Prop
  /-- What holds before every instruction. -/
  holds : Context → σ → Prop
  /-- What holds after a failure. -/
  fails : Failure → Context → σ → Prop

namespace Invariant

variable {inv : Invariant σ}

/-- The invariant after a run. -/
def After {α : Type} (inv : Invariant σ) (result : Except Failure α) (machine : Machine σ) : Prop :=
  Work.Ends (fun failure => inv.fails failure machine.context machine.host)
    (fun _ => inv.holds machine.context machine.host) result

structure Lawful (inv : Invariant σ) (settings : Settings σ) : Prop where
  plain : ∀ {instruction : Instruction} {before after : Machine σ} {result : Except Failure Flow},
    inv.allows instruction → inv.holds before.context before.host →
      Plain instruction before result after → inv.After result after
  invokes : ∀ {instruction : Instruction} {machine next : Machine σ} {body : Body},
    inv.allows instruction → inv.holds machine.context machine.host →
      Invokes machine instruction body next → inv.holds next.context next.host ∧
        ∀ program, body = .program program → ∀ instruction ∈ program, inv.allows instruction
  /-- A native succeeds, and the context is looked at. -/
  returns : ∀ {frame : Frame σ} {name : String} {next : Machine σ} {context : Context} {host : σ},
    inv.during frame → frame.Invokes settings (.native name) next →
      inv.holds next.context next.host →
      (settings.natives name).run (next.context, next.host) = (.ok (), context, host) →
        if context.isValid then inv.holds context host
        else inv.fails { fault := .unsafeContext } context host
  /-- A native fails. -/
  throws : ∀ {frame : Frame σ} {name : String} {next : Machine σ} {context : Context} {host : σ}
    {failure : Failure}, inv.during frame → frame.Invokes settings (.native name) next →
      inv.holds next.context next.host →
      (settings.natives name).run (next.context, next.host) = (.error failure, context, host) →
        inv.fails failure context host
  refused : ∀ {context : Context} {host : σ}, inv.holds context host → context.isValid = false →
    inv.fails { fault := .invalidApi } context host
  full : ∀ {context : Context} {host : σ}, inv.holds context host →
    inv.fails { fault := .callDepthExceeded settings.limit } context host
  main : ∀ {context : Context} {host : σ} {program : Program}, inv.holds context host →
    (∀ instruction ∈ program, inv.allows instruction) → inv.holds (context.bindMain program) host
  within : ∀ {failure : Failure} {context : Context} {host : σ} (text : String),
    inv.fails failure context host → inv.fails (failure.within text) context host

/-- A call of a program from a frame keeps the invariant. -/
def Calls (inv : Invariant σ) (settings : Settings σ) (frame : Frame σ) : Prop :=
  ∀ inner next, frame.Invokes settings (.program inner) next → inv.holds next.context next.host →
    (∀ instruction ∈ inner, inv.allows instruction) →
    inv.After ((evaluate settings inner).run next).1 ((evaluate settings inner).run next).2

variable (lawful : inv.Lawful settings)

include lawful

theorem frame_after {frame : Frame σ} (during : inv.during frame)
    (allowed : inv.allows frame.instruction)
    (holds : inv.holds frame.machine.context frame.machine.host) (calls : inv.Calls settings frame)
    {result : Except Failure Flow} {after : Machine σ} (done : frame.Does settings result after) :
    inv.After result after := by
  have now : inv.holds (frame.now settings).context (frame.now settings).host := by
    simpa using holds
  -- what a function does that is called from here
  have invoked {body : Body} {next : Machine σ} (invokes : frame.Invokes settings body next) :
      inv.After ((invoke settings (Machine.evaluate settings) body).run next).1
        ((invoke settings (Machine.evaluate settings) body).run next).2 := by
    obtain ⟨begins, inner⟩ := lawful.invokes allowed now invokes
    cases body with
    | program program => exact calls program next invokes begins (inner program rfl)
    | native name =>
      rw [run_invoke_native]
      rcases ran : (settings.natives name).run (next.context, next.host) with
        ⟨failure | _, context, host⟩
      · exact lawful.throws during invokes begins ran
      · have returned := lawful.returns during invokes begins ran
        cases valid : context.isValid <;> simpa [valid, After, Work.Ends, changed] using returned
  cases done.outcome with
  | plain plain => exact lawful.plain allowed now plain
  | returned invokes ran =>
    have held := invoked invokes
    rwa [ran] at held
  | thrown invokes ran =>
    have held := invoked invokes
    rwa [ran] at held

theorem comes_holds (during : ∀ frame, frame.Of settings program start → inv.during frame)
    (calls : ∀ frame, frame.Of settings program start → inv.Calls settings frame)
    (allowed : ∀ instruction ∈ program, inv.allows instruction)
    (holds : inv.holds start.context start.host) {position : Nat} {machine : Machine σ}
    (came : Comes settings program start position machine) :
    inv.holds machine.context machine.host := by
  induction came with
  | begins _ _ => exact lawful.main holds allowed
  | @goesOn position instruction machine after came current done ih =>
    let frame : Frame σ := ⟨program, position, instruction, machine, current⟩
    have reached : frame.Of settings program start := ⟨rfl, came⟩
    exact frame_after lawful (during frame reached) (allowed _ frame.instruction_mem) ih
      (calls frame reached) done

/-- **An invariant holds after every run**, however it ends. -/
theorem evaluate (during : ∀ frame, Dispatches settings program start frame → inv.during frame)
    (allowed : ∀ instruction ∈ program, inv.allows instruction)
    (holds : inv.holds start.context start.host) :
    inv.After ((evaluate settings program).run start).1 ((evaluate settings program).run start).2 := by
  -- by induction on the room for calls: a program that is called has less of it
  induction room : settings.limit - start.depth using Nat.strong_induction_on
    generalizing program start with
  | _ n ih =>
    have calls : ∀ frame, frame.Of settings program start → inv.Calls settings frame := by
      intro frame reached inner next invokes begins runs
      have deeper := reached.depth invokes
      have entry := reached.2.entry.2
      refine ih _ ?_ ?_ runs begins rfl
      · omega
      · intro frame dispatched
        exact during frame (.called reached invokes dispatched)
    have own : ∀ frame, frame.Of settings program start → inv.during frame :=
      fun frame reached => during frame (.own reached)
    have frames {frame : Frame σ} {result : Except Failure Flow} {after : Machine σ}
        (reached : frame.Of settings program start) (done : frame.Does settings result after) :
        inv.After result after := by
      exact frame_after lawful (own frame reached) (allowed _ reached.mem)
        (comes_holds lawful own calls allowed holds reached.2) (calls frame reached) done
    have ended := evaluate_ended settings program start
    generalize ((Machine.evaluate settings program).run start).1 = result at ended ⊢
    generalize ((Machine.evaluate settings program).run start).2 = after at ended ⊢
    cases ended with
    | refused invalid => exact lawful.refused holds invalid
    | full valid full => exact lawful.full (lawful.main holds allowed)
    | finished came =>
      have held := comes_holds lawful own calls allowed holds came
      exact held
    | left reached done => exact frames reached done
    | failed reached done => exact lawful.within _ (frames reached done)

/-- **An invariant holds at every frame** that a run comes to, at any depth. -/
theorem dispatched {frame : Frame σ} (dispatched : Dispatches settings program start frame)
    (during : ∀ frame, Dispatches settings program start frame → inv.during frame)
    (allowed : ∀ instruction ∈ program, inv.allows instruction)
    (holds : inv.holds start.context start.host) :
    inv.holds frame.machine.context frame.machine.host ∧ inv.allows frame.instruction := by
  have own {program : Program} {start : Machine σ}
      (during : ∀ frame, Dispatches settings program start frame → inv.during frame)
      (allowed : ∀ instruction ∈ program, inv.allows instruction)
      (holds : inv.holds start.context start.host) {frame : Frame σ}
      (reached : frame.Of settings program start) :
      inv.holds frame.machine.context frame.machine.host := by
    refine comes_holds lawful (fun frame reached => during frame (.own reached)) ?_ allowed holds
      reached.2
    intro frame reached inner next invokes begins runs
    exact evaluate lawful (fun frame below => during frame (.called reached invokes below)) runs begins
  induction dispatched with
  | own reached => exact ⟨own during allowed holds reached, allowed _ reached.mem⟩
  | called reached invokes _ ih =>
    have now := own during allowed holds reached
    obtain ⟨begins, inner⟩ := lawful.invokes (allowed _ reached.mem) (by simpa using now)
      invokes
    exact ih (fun frame below => during frame (.called reached invokes below)) (inner _ rfl) begins

end Invariant

end Machine

end StackScript
