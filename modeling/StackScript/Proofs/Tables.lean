/-
# StackScript.Proofs.Tables — what programs do to variables and functions

No instruction defines a function and none removes a variable, and the natives of a
session touch neither table. The only function that is ever added is `main`, when the
first program starts. So the functions of a session can be told from its submissions
alone, at every moment, and a variable that was bound stays bound
(`Session.tables_evolve`).
-/
import StackScript.Proofs.Guard
import StackScript.Proofs.Session

namespace StackScript

set_option autoImplicit false

namespace Context

/-- A function of the name `main` exists. -/
def HasMain (context : Context) : Prop :=
  ∃ body, Entries.find? mainName context.functions = some body

theorem HasMain.bindMain_eq {context : Context} (main : context.HasMain) (program : Program) :
    context.bindMain program = context := by
  obtain ⟨body, found⟩ := main
  simp [bindMain, found]

theorem bindMain_hasMain (context : Context) (program : Program) :
    (context.bindMain program).HasMain := by
  unfold bindMain
  split
  · rename_i body found
    exact ⟨body, found⟩
  · exact ⟨.program program, Entries.find?_insert_self ..⟩

theorem bindMain_bindings (context : Context) (program : Program) :
    (context.bindMain program).bindings = context.bindings := by
  unfold bindMain
  split <;> rfl

/-- The context has these functions, and at least these variables. -/
structure Has (functions : List (String × Body)) (bound : String → Prop) (context : Context) :
    Prop where
  functions : context.functions = functions
  bound : ∀ name, bound name → context.Binds name

theorem Has.of_tables {functions : List (String × Body)} {bound : String → Prop}
    {before after : Context} (has : before.Has functions bound)
    (same : after.functions = before.functions) (kept : ∀ name, before.Binds name → after.Binds name) :
    after.Has functions bound where
  functions := same.trans has.functions
  bound name member := kept name (has.bound name member)

end Context

namespace Machine

variable {σ : Type} [Host σ] {settings : Settings σ} {program : Program} {start : Machine σ}

/-! ## One program -/

omit [Host σ] in
theorem prepared_eq (main : start.context.HasMain) (program : Program) :
    start.prepared program = start := by
  rw [prepared, main.bindMain_eq]

omit [Host σ] in
theorem prepared_prepared (start : Machine σ) (program : Program) :
    (start.prepared program).prepared program = start.prepared program :=
  prepared_eq (start.context.bindMain_hasMain program) program

/-- A program finds its `main` at its start, so it makes no difference whether it was there
before. -/
theorem evaluate_prepared (valid : start.context.isValid = true) :
    (evaluate settings program).run (start.prepared program) = (evaluate settings program).run start := by
  have still : (start.prepared program).context.isValid = true := Context.bindMain_isValid valid program
  by_cases room : start.depth < settings.limit
  · rw [evaluate_entered valid room, evaluate_entered still room, prepared_prepared]
  · have full := Nat.le_of_not_lt room
    rw [evaluate_full valid full, evaluate_full still full, prepared_prepared]

theorem Comes.prepared {position : Nat} {machine : Machine σ}
    (came : Comes settings program start position machine) :
    Comes settings program (start.prepared program) position machine := by
  induction came with
  | begins valid room =>
    have again : Comes settings program (start.prepared program) 0 _ :=
      .begins (Context.bindMain_isValid valid program) room
    rwa [prepared_prepared] at again
  | goesOn _ current done ih => exact ih.goesOn current done

theorem Dispatches.prepared {frame : Frame σ} (dispatched : Dispatches settings program start frame) :
    Dispatches settings program (start.prepared program) frame := by
  cases dispatched with
  | own reached => exact .own ⟨reached.1, reached.2.prepared⟩
  | called reached invokes inside => exact .called ⟨reached.1, reached.2.prepared⟩ invokes inside

/-- The functions stay as they are, and so do the variables but for new ones. -/
def Invariant.tables (functions : List (String × Body)) (bound : String → Prop) : Invariant σ where
  during _ := True
  allows _ := True
  holds context _ := context.Has functions bound
  fails _ context _ := context.Has functions bound

theorem Invariant.tables_lawful (standard : settings.natives = Native.standard)
    {functions : List (String × Body)} (main : ∃ body, Entries.find? Context.mainName functions = some body)
    (bound : String → Prop) : (Invariant.tables functions bound : Invariant σ).Lawful settings := by
  -- a native of a session leaves both tables as they are
  have native {name : String} {next : Machine σ} {result : Except Failure Unit} {context : Context}
      {host : σ} (has : next.context.Has functions bound)
      (ran : (settings.natives name).run (next.context, next.host) = (result, context, host)) :
      context.Has functions bound := by
    rw [standard] at ran
    obtain ⟨bindings, same, _⟩ := Native.standard_run ran
    refine has.of_tables same fun other member => ?_
    rwa [Context.Binds, bindings]
  refine
    { plain := ?_, invokes := ?_, returns := ?_, throws := ?_, refused := ?_, full := ?_, main := ?_,
      within := ?_ }
  · intro instruction before after result _ has plain
    have still := has.of_tables plain.steady.functions plain.steady.kept
    cases result with
    | ok flow => exact still
    | error failure => exact still
  · intro instruction machine next body _ has invokes
    have steady := invokes.steady fun _ => True
    exact ⟨has.of_tables steady.functions steady.kept, fun _ _ _ _ => trivial⟩
  · intro frame name next context host _ _ has ran
    have still := native has ran
    split
    · exact still
    · exact still
  · intro frame name next context host failure _ _ has ran
    exact native has ran
  · exact fun has _ => has
  · exact fun has => has
  · intro context host inner has _
    have bound : context.HasMain := by
      rw [Context.HasMain, has.functions]
      exact main
    show (context.bindMain inner).Has _ _
    rwa [bound.bindMain_eq]
  · exact fun _ has => has

omit [Host σ] in
theorem start_has (program : Program) (start : Machine σ) :
    (start.prepared program).context.Has (start.context.bindMain program).functions
      start.context.Binds := by
  refine ⟨rfl, fun name bound => ?_⟩
  show name ∈ (start.context.bindMain program).bindings.map Prod.fst
  rwa [Context.bindMain_bindings]

/-- **A program adds at most its `main` to the functions and removes no variable**, however it
ends. -/
theorem evaluate_has (standard : settings.natives = Native.standard)
    (valid : start.context.isValid = true) :
    ((evaluate settings program).run start).2.context.Has (start.context.bindMain program).functions
      start.context.Binds := by
  have lawful := Invariant.tables_lawful standard (start.context.bindMain_hasMain program)
    start.context.Binds
  have during : ∀ frame, Dispatches settings program (start.prepared program) frame → True :=
    fun _ _ => trivial
  have kept := Invariant.evaluate lawful during (fun _ _ => trivial) (start_has program start)
  rw [evaluate_prepared valid] at kept
  revert kept
  rcases (evaluate settings program).run start with ⟨_ | _, after⟩ <;> exact id

/-- The same holds at every moment of its run. -/
theorem dispatched_has (standard : settings.natives = Native.standard) {frame : Frame σ}
    (dispatched : Dispatches settings program start frame) :
    frame.machine.context.Has (start.context.bindMain program).functions start.context.Binds := by
  have lawful := Invariant.tables_lawful standard (start.context.bindMain_hasMain program)
    start.context.Binds
  exact (Invariant.dispatched lawful dispatched.prepared (fun _ _ => trivial) (fun _ _ => trivial)
    (start_has program start)).1

end Machine

/-! ## A session -/

/-- The first program that can be read from the sources. -/
def Program.first? (sources : List String) : Option Program :=
  sources.findSome? fun source => (Program.parse source).toOption

theorem Program.first?_cons (source : String) (rest : List String) :
    Program.first? (source :: rest) = (Program.parse source).toOption.or (Program.first? rest) := by
  rw [Program.first?, List.findSome?_cons]
  cases (Program.parse source).toOption <;> rfl

theorem Program.first?_concat (sources : List String) (source : String) :
    Program.first? (sources ++ [source]) =
      (Program.first? sources).or (Program.parse source).toOption := by
  rw [Program.first?, List.findSome?_append, ← Program.first?, ← Program.first?, Program.first?_cons]
  exact congrArg _ Option.or_none

namespace Session

variable {σ : Type} [Host σ]

/-- The functions of a session: the natives of the host under their own names, and `main` as
soon as there has been a program. -/
def functionTable : Option Program → List (String × Body)
  | none =>
    [("help", .native "help"), ("read-line", .native "read-line"),
      ("stack-dump", .native "stack-dump")]
  | some program =>
    [("help", .native "help"), ("main", .program program), ("read-line", .native "read-line"),
      ("stack-dump", .native "stack-dump")]

theorem bindMain_functionTable {context : Context} {first : Option Program}
    (functions : context.functions = functionTable first) (program : Program) :
    (context.bindMain program).functions = functionTable (first.or (some program)) := by
  cases first with
  | none =>
    unfold Context.bindMain
    rw [functions]
    rfl
  | some main =>
    have bound : context.HasMain := ⟨.program main, by rw [functions]; rfl⟩
    rw [bound.bindMain_eq, functions]
    rfl

/-- The state of the tables after some submissions, of which this was the first program. -/
structure Tabled (session : Session σ) (first : Option Program) : Prop where
  sound : session.Sound
  functions : session.machine.context.functions = functionTable first
  begun : session.finished = true → first.isSome = true

theorem start_tabled (limit : Nat) (tracing : Bool) (host : σ) :
    (start { natives := Native.standard, limit, tracing } host).Tabled none where
  sound := start_sound limit tracing host
  functions := rfl
  begun finished := by cases finished

theorem submit_tabled {session : Session σ} {first : Option Program} (tabled : session.Tabled first)
    (source : String) :
    (session.submit source).2.Tabled (first.or (Program.parse source).toOption) ∧
      ∀ name, session.machine.context.Binds name →
        (session.submit source).2.machine.context.Binds name := by
  have sound := (submit_sound tabled.sound source).1
  have parsed := Program.parse_ends source
  revert sound
  unfold submit Machine.submit
  split
  · rename_i finished
    obtain ⟨program, rfl⟩ := Option.isSome_iff_exists.mp (tabled.begun finished)
    exact fun _ => ⟨tabled, fun _ => id⟩
  · cases read : Program.parse source with
    | ok program =>
      have has : ((Machine.evaluate session.settings program).run session.machine).2.context.Has
          (session.machine.context.bindMain program).functions session.machine.context.Binds :=
        Machine.evaluate_has tabled.sound.natives tabled.sound.valid
      rcases ran : (Machine.evaluate session.settings program).run session.machine with
        ⟨result, machine⟩
      rw [ran] at has
      intro sound
      refine ⟨⟨sound, ?_, ?_⟩, has.bound⟩
      · exact has.functions.trans (bindMain_functionTable tabled.functions program)
      · intro _
        cases first <;> rfl
    | error fault =>
      rw [read] at parsed
      have ordinary : fault.Ordinary := parsed
      intro sound
      refine ⟨⟨sound, ?_, ?_⟩, fun _ => id⟩
      · show session.machine.context.functions = functionTable (first.or none)
        rw [Option.or_none, tabled.functions]
      · -- a source that cannot be read does not end the session
        have goesOn : fault.terminates = false := by
          simpa [Fault.terminates] using ordinary.kind_ne.1
        intro finished
        simp [Reply.ofResult, Action.fail, Work.run_throw, goesOn] at finished

theorem submitAll_tabled {session : Session σ} {first : Option Program}
    (tabled : session.Tabled first) (sources : List String) :
    (session.submitAll sources).2.Tabled (first.or (Program.first? sources)) ∧
      ∀ name, session.machine.context.Binds name →
        (session.submitAll sources).2.machine.context.Binds name := by
  induction sources generalizing session first with
  | nil =>
    have none : first.or (Program.first? []) = first := Option.or_none
    rw [none]
    exact ⟨tabled, fun _ => id⟩
  | cons source rest ih =>
    obtain ⟨next, kept⟩ := submit_tabled tabled source
    obtain ⟨final, still⟩ := ih next
    have order : (first.or (Program.parse source).toOption).or (Program.first? rest) =
        first.or (Program.first? (source :: rest)) := by
      rw [Option.or_assoc, Program.first?_cons]
    rw [order] at final
    exact ⟨final, fun name bound => still name (kept name bound)⟩

theorem submitAll_append (session : Session σ) (earlier later : List String) :
    (session.submitAll (earlier ++ later)).2 = ((session.submitAll earlier).2.submitAll later).2 := by
  induction earlier generalizing session with
  | nil => rfl
  | cons source rest ih => exact ih (session.submit source).2

/-- **The tables of a session change only in these ways.** Its functions are the natives of
the host, and `main` if one of the submissions so far could be read, which is then the first
of those. This holds also while the next submission runs, at every instruction. And a
variable stays bound through all later submissions, whatever becomes of them. -/
theorem tables_evolve (limit : Nat) (tracing : Bool) (host : σ) (earlier : List String) :
    let settings : Settings σ := { natives := Native.standard, limit, tracing }
    let context (sources : List String) : Context :=
      ((start settings host).submitAll sources).2.machine.context
    (context earlier).functions = functionTable (Program.first? earlier) ∧
      (∀ source program frame, Program.parse source = .ok program →
        Machine.Dispatches settings program ((start settings host).submitAll earlier).2.machine frame →
          frame.machine.context.functions = functionTable (Program.first? (earlier ++ [source])) ∧
            ∀ name, (context earlier).Binds name → frame.machine.context.Binds name) ∧
      ∀ later name, (context earlier).Binds name → (context (earlier ++ later)).Binds name := by
  intro settings context
  have standard : settings.natives = Native.standard := rfl
  obtain ⟨tabled, _⟩ := submitAll_tabled (start_tabled limit tracing host) earlier
  rw [Option.none_or] at tabled
  refine ⟨tabled.functions, ?_, ?_⟩
  · intro source program frame read dispatched
    have has := Machine.dispatched_has standard dispatched
    refine ⟨?_, has.bound⟩
    rw [has.functions, bindMain_functionTable tabled.functions, Program.first?_concat, read]
    rfl
  · intro later name bound
    have kept := (submitAll_tabled tabled later).2 name bound
    rwa [← submitAll_append] at kept

end Session

end StackScript
