/-
# StackScript.Proofs.Lifecycle — how a session ends

The end of a session has one origin: an instruction that asks for it. Whatever program
comes to one, at whatever depth, ends in the same way, because no instruction outside
turns the failure into something else; and no other instruction and no native raises it
(`Machine.evaluate_exits_iff`). A session is open until a reply says that it is dead.
From then on nothing changes any more (`Session.lifecycle`).
-/
import StackScript.Proofs.Append
import StackScript.Proofs.Token
import StackScript.Proofs.Trail

namespace StackScript

set_option autoImplicit false

/-- The instruction is one of the two tokens that end a session. -/
def Instruction.IsExit (instruction : Instruction) : Prop :=
  ∃ mark ∈ ["#", "~"], instruction = .token (mark ++ "exit") (.control .exit)

/-- An instruction that was read from a literal ends the session only as one of the two tokens. -/
theorem Instruction.FromLiteral.exits_iff {instruction : Instruction}
    (read : instruction.FromLiteral) : instruction.Exits ↔ instruction.IsExit := by
  constructor
  · rintro ⟨text, rfl⟩
    obtain ⟨tree, made⟩ := read
    have spec := Token.read_spec text
    rw [Instruction.ofLiteral_token made.symm] at spec
    rcases spec with sign | marked
    · obtain ⟨word, _⟩ := Control.ofSign?_iff.mp sign
      cases word
    · obtain ⟨word, same, spelled⟩ := Control.ofMarked?_iff.mp marked
      cases same
      rcases spelled with rfl | rfl
      · exact ⟨"#", by simp, rfl⟩
      · exact ⟨"~", by simp, rfl⟩
  · rintro ⟨mark, _, rfl⟩
    exact ⟨_, rfl⟩

namespace Machine

variable {σ : Type} [Host σ] {settings : Settings σ} {program : Program} {start : Machine σ}

/-- The end of a session shows no trail. -/
theorem within_terminated (text : String) :
    Failure.within { fault := .terminated } text = { fault := .terminated } := rfl

/-- **A program that comes to an exit ends the session**, at whatever depth. -/
theorem Dispatches.exits {frame : Frame σ} (dispatched : Dispatches settings program start frame)
    (exits : frame.instruction.Exits) :
    ((evaluate settings program).run start).1 = .error { fault := .terminated } := by
  induction dispatched with
  | own reached => rw [evaluate_failed reached (does_exit settings exits), within_terminated]
  | @called program inner start next outer frame reached invokes dispatched ih =>
    rcases ran : (evaluate settings inner).run next with ⟨result, after⟩
    obtain rfl : result = .error { fault := .terminated } := by
      have inside := ih exits
      rwa [ran] at inside
    have done : outer.Does settings (.error { fault := .terminated }) after :=
      invokes.does_error ran
    rw [evaluate_failed reached done, within_terminated]

/-- **The end of a session comes from an exit** that was dispatched. -/
theorem exists_exit (standard : settings.natives = Native.standard) (ready : Ready program start)
    {failure : Failure} {after : Machine σ}
    (ran : (evaluate settings program).run start = (.error failure, after))
    (ends : failure.fault.kind = .terminated) :
    ∃ frame, Dispatches settings program start frame ∧ frame.instruction.IsExit := by
  -- by induction on the room that is left for calls
  induction left : settings.limit - start.depth using Nat.strong_induction_on
    generalizing program start failure after with
  | _ n ih =>
    have ended := evaluate_ended settings program start
    rw [ran] at ended
    cases ended with
    | refused invalid => cases ends
    | full _ full => cases ends
    | @failed frame cause _ reached done =>
      rw [Action.fault_within] at ends
      rcases frame_fails standard ready reached done with
        ⟨_, ordinary | ⟨_, exits⟩⟩ | ⟨inner, next, invokes, inside⟩
      · exact absurd ends ordinary.kind_ne.1
      · have read := (ready.frame (standard_placesLiterals standard) reached).2
        exact ⟨frame, .own reached, read.exits_iff.mp exits⟩
      · have deeper := reached.depth invokes
        have room := reached.2.entry.2
        have ready' := ready.called (standard_placesLiterals standard) reached invokes
        obtain ⟨frame, dispatched, exit⟩ :=
          ih (settings.limit - next.depth) (by omega) ready' inside ends rfl
        exact ⟨frame, .called reached invokes dispatched, exit⟩

/-- A program ends the session exactly if it comes to one of the two tokens, at some depth. -/
theorem evaluate_exits_iff (standard : settings.natives = Native.standard)
    (ready : Ready program start) :
    Reply.ofResult ((evaluate settings program).run start).1 = .dead ↔
      ∃ frame, Dispatches settings program start frame ∧ frame.instruction.IsExit := by
  constructor
  · intro dead
    rcases ran : (evaluate settings program).run start with ⟨failure | _, after⟩
    · rw [ran] at dead
      refine exists_exit standard ready ran ?_
      by_contra goesOn
      simp [Reply.ofResult, Fault.terminates, goesOn] at dead
    · rw [ran] at dead
      cases dead
  · rintro ⟨frame, dispatched, _, _, exit⟩
    rw [dispatched.exits ⟨_, exit⟩]
    rfl

end Machine

namespace Session

variable {σ : Type} [Host σ] {session : Session σ} {source : String}

/-! ## One submission -/

theorem submit_finished (finished : session.finished = true) (source : String) :
    session.submit source = (.dead, session) := by
  simp [submit, finished]

theorem submit_open (isOpen : session.finished = false) {result : Except Failure Unit}
    {machine : Machine σ}
    (ran : (Machine.submit session.settings source).run session.machine = (result, machine)) :
    session.submit source =
      (Reply.ofResult result,
        { session with machine, finished := decide (Reply.ofResult result = .dead) }) := by
  simp only [submit, isOpen, ran, Bool.false_eq_true, if_false]

/-- A source that cannot be read is refused, and nothing else happens. -/
theorem submit_refused (isOpen : session.finished = false) {fault : Fault}
    (failed : Program.parse source = .error fault) :
    session.submit source = (.error { fault }, session) := by
  have ordinary : fault.Ordinary := by
    have parsed := Program.parse_ends source
    rwa [failed] at parsed
  have replied : Reply.ofResult (.error { fault }) = .error { fault } := by
    simp [Reply.ofResult, Fault.terminates, ordinary.kind_ne.1]
  have refused : (Machine.submit session.settings source).run session.machine =
      (.error { fault }, session.machine) := by
    rw [Machine.submit, failed]
    rfl
  rw [submit_open isOpen refused, replied]
  obtain ⟨settings, machine, finished⟩ := session
  cases isOpen
  rfl

/-- A program that can be read ends the session exactly if it comes to an exit. -/
theorem submit_dead_iff (sound : session.Sound) (isOpen : session.finished = false)
    {program : Program} (read : Program.parse source = .ok program) :
    (session.submit source).1 = .dead ↔
      ∃ frame, Machine.Dispatches session.settings program session.machine frame ∧
        frame.instruction.IsExit := by
  have runs : Discipline.session.Runs program := by
    have parsed := Program.parse_ends source
    rwa [read] at parsed
  have ready : Machine.Ready program session.machine := by
    refine ⟨?_, Discipline.session_obeys sound.context, sound.valid⟩
    exact Program.fromLiterals_iff.mpr fun instruction member => (runs instruction member).self
  have ran : (Machine.submit session.settings source).run session.machine =
      (Machine.evaluate session.settings program).run session.machine := by
    rw [Machine.submit, read]
  rw [submit_open isOpen ran]
  exact Machine.evaluate_exits_iff sound.natives ready

theorem submit_settings (session : Session σ) (source : String) :
    (session.submit source).2.settings = session.settings := by
  unfold submit
  split <;> rfl

/-- A submission leaves the session finished exactly if it is answered so. -/
theorem submit_finished_iff (session : Session σ) (source : String) :
    (session.submit source).2.finished = true ↔ (session.submit source).1 = .dead := by
  unfold submit
  split
  · rename_i finished
    exact iff_of_true finished rfl
  · exact decide_eq_true_iff

/-! ## All submissions -/

theorem submitAll_finished (finished : session.finished = true) (sources : List String) :
    session.submitAll sources = (List.replicate sources.length .dead, session) := by
  induction sources with
  | nil => rfl
  | cons source rest ih => simp [submitAll, submit_finished finished, ih, List.replicate_succ]

theorem submitAll_settings (session : Session σ) (sources : List String) :
    (session.submitAll sources).2.settings = session.settings := by
  induction sources generalizing session with
  | nil => rfl
  | cons source rest ih => exact (ih _).trans (submit_settings session source)

theorem submitAll_finished_iff (session : Session σ) (sources : List String) :
    (session.submitAll sources).2.finished = true ↔
      session.finished = true ∨ .dead ∈ (session.submitAll sources).1 := by
  induction sources generalizing session with
  | nil => simp [submitAll]
  | cons source rest ih =>
    have replied : .dead ∈ (session.submitAll (source :: rest)).1 ↔
        (session.submit source).1 = .dead ∨ .dead ∈ ((session.submit source).2.submitAll rest).1 :=
      List.mem_cons.trans (or_congr_left eq_comm)
    have final : (session.submitAll (source :: rest)).2 =
        ((session.submit source).2.submitAll rest).2 := rfl
    rw [final, ih, submit_finished_iff, replied]
    constructor
    · exact .inr
    · rintro (finished | dead)
      · exact .inl (by rw [submit_finished finished])
      · exact dead

/-- **The life of a session.** It is finished exactly if one of the replies so far was `dead`.
From then on every reply is `dead` and nothing about it changes. Before that, a source that
is not JSON, or not an array, is refused with a failure of its own kind and an empty trail, and
the session stays as it was. A program that can be read is answered `dead` exactly if its
evaluation came to one of the two tokens that end a session, in the program itself or in one
that it called, at any depth. -/
theorem lifecycle (limit : Nat) (tracing : Bool) (host : σ) (earlier : List String) :
    let settings : Settings σ := { natives := Native.standard, limit, tracing }
    let (replies, session) := (start settings host).submitAll earlier
    (session.finished = true ↔ .dead ∈ replies) ∧
      (.dead ∈ replies → ∀ later,
        session.submitAll later = (List.replicate later.length .dead, session)) ∧
      (.dead ∉ replies → ∀ source,
        (∀ problem, Json.read source = .error problem → ∃ failure,
          session.submit source = (.error failure, session) ∧
            failure.fault.kind = .decode ∧ failure.trail = []) ∧
        (∀ literal, Json.read source = .ok literal → (∀ items, literal ≠ .array items) → ∃ failure,
          session.submit source = (.error failure, session) ∧
            failure.fault.kind = .malformedInstruction ∧ failure.trail = []) ∧
        (∀ program, Program.parse source = .ok program →
          ((session.submit source).1 = .dead ↔
            ∃ frame, Machine.Dispatches settings program session.machine frame ∧
              frame.instruction.IsExit))) := by
  intro settings
  have sound : ((start settings host).submitAll earlier).2.Sound :=
    (submitAll_sound (start_sound limit tracing host) earlier).1
  have same := submitAll_settings (start settings host) earlier
  have finished_iff := submitAll_finished_iff (start settings host) earlier
  rcases ran : (start settings host).submitAll earlier with ⟨replies, session⟩
  rw [ran] at sound same finished_iff
  have dead_iff : session.finished = true ↔ .dead ∈ replies :=
    finished_iff.trans (or_iff_right Bool.false_ne_true)
  refine ⟨dead_iff, ?_, ?_⟩
  · intro dead later
    exact submitAll_finished (dead_iff.mpr dead) later
  · intro alive source
    have isOpen : session.finished = false := by
      simpa using mt dead_iff.mp alive
    refine ⟨?_, ?_, ?_⟩
    · intro problem failed
      have refused : Program.parse source = .error (.notJson problem) := by
        rw [Program.parse, failed]
      exact ⟨_, submit_refused isOpen refused, rfl, rfl⟩
    · intro literal read notArray
      have refused : Program.parse source = .error (.notASequence literal.render) := by
        rw [Program.parse, read]
        cases literal with
        | array items => exact absurd rfl (notArray items)
        | _ => rfl
      exact ⟨_, submit_refused isOpen refused, rfl, rfl⟩
    · intro program read
      have dead := submit_dead_iff sound isOpen read
      rwa [same] at dead

/-- A session that has refused a source and run a program is ended by a method, which asks for it
inside the program that calls it. -/
theorem lifecycle_method :
    let settings : Settings Transcript := { natives := Native.standard, limit := 2, tracing := false }
    let source : String := "[\x7b\"!\": \x7b\"f\": [1, \"~exit\"]\x7d\x7d, \"&d\", \":$d.f\"]"
    let earlier : List String := ["[1,", "[2]"]
    let session := ((start settings {}).submitAll earlier).2
    .dead ∉ ((start settings {}).submitAll earlier).1 ∧ (session.submit source).1 = .dead ∧
      ∃ program frame, Program.parse source = .ok program ∧
        Machine.Dispatches settings program session.machine frame ∧ frame.instruction.IsExit := by
  intro settings source earlier session
  have alive : .dead ∉ ((start settings {}).submitAll earlier).1 := by decide +kernel
  have dead : (session.submit source).1 = .dead := by decide +kernel
  have parses : (Program.parse source).toOption.isSome = true := by decide +kernel
  obtain ⟨_, _, life⟩ := lifecycle 2 false ({} : Transcript) earlier
  obtain ⟨_, _, exits⟩ := life alive source
  cases read : Program.parse source with
  | error fault =>
    rw [read] at parses
    cases parses
  | ok program =>
    obtain ⟨frame, dispatched, exit⟩ := (exits program read).mp dead
    exact ⟨alive, dead, program, frame, rfl, dispatched, exit⟩

end Session

end StackScript
