/-
# StackScript.Proofs.Dispatch — what one instruction does

An instruction calls a function, or it calls nothing. Which function is called is
settled by the context of that moment (`Machine.Invokes`), and what follows is up to
the function. An instruction that calls nothing can do little (`Machine.Plain`): it
binds at most the variable that a pop names, leaves the functions, the depth and the
trace alone, and fails only in ways that can be read off the instruction.

`Machine.execute_cases` says that there is no third case. Later modules use it and
do not open the instructions again.
-/
import StackScript.Proofs.Simulation

namespace StackScript

set_option autoImplicit false

open Work (Ensures)

variable {σ α β : Type}

/-- The discipline that asks for nothing. -/
def Discipline.free : Discipline where
  dict _ := True
  body _ := True
  instruction _ := True
  name _ := True
  functions _ := True
  native _ := True
  fault _ := True

/-! ## What can be read off an instruction -/

namespace Instruction

/-- The instruction ends the running program. -/
def Leaves (instruction : Instruction) : Prop :=
  ∃ text, instruction = .token text (.control .leave)

/-- The instruction ends the session. -/
def Exits (instruction : Instruction) : Prop :=
  ∃ text, instruction = .token text (.control .exit)

/-- The instruction may bind the variable. -/
def Binds (instruction : Instruction) (name : String) : Prop :=
  ∃ text path, instruction = .token text (.pop path) ∧ path.name = name

/-- A fault that the instruction itself can raise. -/
inductive Raises (instruction : Instruction) : Fault → Prop
  | ordinary {fault : Fault} (ordinary : fault.Ordinary) : Raises instruction fault
  | terminated (exits : instruction.Exits) : Raises instruction .terminated
  | stored {tree : Json} {fault : Fault} (same : instruction = .invalid tree fault) :
      Raises instruction fault

end Instruction

/-- The variable is bound. -/
def Context.Binds (context : Context) (name : String) : Prop :=
  name ∈ context.bindings.map Prod.fst

namespace Machine

/-- Nothing differs but the stack, the host and the variables. Those that were bound
are bound, and new ones have the given names. -/
structure Steady (binds : String → Prop) (before after : Machine σ) : Prop where
  depth : after.depth = before.depth
  trace : after.newestTrace = before.newestTrace
  functions : after.context.functions = before.context.functions
  kept : ∀ name, before.context.Binds name → after.context.Binds name
  added : ∀ name, after.context.Binds name → before.context.Binds name ∨ binds name

namespace Steady

variable {binds : String → Prop}

theorem of_tables {before after : Machine σ} (depth : after.depth = before.depth)
    (trace : after.newestTrace = before.newestTrace)
    (functions : after.context.functions = before.context.functions)
    (bindings : after.context.bindings = before.context.bindings) : Steady binds before after := by
  refine ⟨depth, trace, functions, ?_, ?_⟩
  · intro name bound
    rwa [Context.Binds, bindings]
  · intro name bound
    rw [Context.Binds, bindings] at bound
    exact .inl bound

theorem refl (machine : Machine σ) : Steady binds machine machine :=
  of_tables rfl rfl rfl rfl

theorem trans {first second third : Machine σ} (before : Steady binds first second)
    (after : Steady binds second third) : Steady binds first third where
  depth := after.depth.trans before.depth
  trace := after.trace.trans before.trace
  functions := after.functions.trans before.functions
  kept name bound := after.kept name (before.kept name bound)
  added name bound := by
    rcases after.added name bound with earlier | new
    · exact before.added name earlier
    · exact .inr new

end Steady

end Machine

/-! ## Actions that call nothing -/

namespace Action

/-- The action keeps every machine steady, and when it fails, it does so by itself. -/
def Calm (binds : String → Prop) (fails : Fault → Prop) (returns : α → Prop)
    (action : Action σ α) : Prop :=
  ∀ before, Ensures (Machine.Steady binds before)
    (fun failure => failure.trail = [] ∧ fails failure.fault) returns action

namespace Calm

variable {binds : String → Prop} {fails : Fault → Prop} {returns : α → Prop}

theorem of_run {action : Action σ α}
    (runs : ∀ machine, Machine.Steady binds machine (action.run machine).2 ∧
      Work.Ends (fun failure : Failure => failure.trail = [] ∧ fails failure.fault) returns
        (action.run machine).1) : Calm binds fails returns action := by
  intro before machine steady
  obtain ⟨after, ended⟩ := runs machine
  exact ⟨steady.trans after, ended⟩

theorem pure {result : α} (good : returns result) :
    Calm binds fails returns (Pure.pure result : Action σ α) :=
  fun _ => .pure good

theorem bind {ends : β → Prop} {action : Action σ α} {next : α → Action σ β}
    (first : Calm binds fails returns action)
    (rest : ∀ result, returns result → Calm binds fails ends (next result)) :
    Calm binds fails ends (action >>= next) :=
  fun before => .bind (first before) fun result good => rest result good before

theorem fail {fault : Fault} (bad : fails fault) :
    Calm binds fails returns (Action.fail fault : Action σ α) :=
  fun _ => .throw ⟨rfl, bad⟩

theorem getContext : Calm binds fails (fun _ => True) (Action.getContext : Action σ Context) :=
  of_run fun machine => ⟨.refl machine, trivial⟩

theorem push (value : Value) : Calm binds fails (fun _ => True) (Action.push value : Action σ Unit) :=
  of_run fun _ => ⟨.of_tables rfl rfl rfl rfl, trivial⟩

theorem modifyHost (change : σ → σ) :
    Calm binds fails (fun _ => True) (Action.modifyHost change) :=
  of_run fun _ => ⟨.of_tables rfl rfl rfl rfl, trivial⟩

/-- Work on the stack fails with ordinary faults. -/
theorem onStack {work : OnStack α} (frugal : work.Frugal)
    (ordinary : ∀ fault : Fault, fault.Ordinary → fails fault) :
    Calm binds fails (fun _ => True) (Action.onStack work : Action σ α) := by
  apply of_run
  intro machine
  have ended := frugal.faults machine.context.stack
  rw [run_onStack]
  refine ⟨.of_tables rfl rfl rfl rfl, ?_⟩
  revert ended
  rcases (work.run machine.context.stack).1 with fault | result
  · intro ended
    exact ⟨rfl, ordinary fault ended⟩
  · exact id

end Calm

end Action

namespace Machine

open StackScript.Action (Calm)

section Parts

variable {binds : String → Prop} {fails : Fault → Prop}
  (ordinary : ∀ fault : Fault, fault.Ordinary → fails fault)

theorem bind_calm {name : String} (named : binds name) (value : Value) :
    Calm binds fails (fun _ => True) (executePop.bind name value : Action σ Unit) := by
  apply Calm.of_run
  intro machine
  refine ⟨⟨rfl, rfl, rfl, ?_, ?_⟩, trivial⟩
  · intro other bound
    exact Entries.mem_keys_insert.mpr (.inr bound)
  · intro other bound
    rcases Entries.mem_keys_insert.mp bound with rfl | earlier
    · exact .inr named
    · exact .inl earlier

theorem rebind_calm (name : String) (value : Value) :
    Calm binds fails (fun _ => True) (rebind name value : Action σ Unit) := by
  apply Calm.of_run
  intro machine
  have same (other : String) :
      other ∈ (Entries.replace name value machine.context.bindings).map Prod.fst ↔
        machine.context.Binds other := by
    rw [Entries.keys_replace, Context.Binds]
  refine ⟨⟨rfl, rfl, rfl, ?_, ?_⟩, trivial⟩
  · intro other bound
    exact (same other).mpr bound
  · intro other bound
    exact .inl ((same other).mp bound)

include ordinary

theorem executePush_calm (path : Path) :
    Calm binds fails (fun _ => True) (executePush path : Action σ Unit) := by
  refine .bind .getContext fun context _ => ?_
  refine .bind (.onStack (path.resolvePush_frugal context.bindings) ordinary) fun value _ => ?_
  exact .push value

theorem executePop_calm {path : Path} (named : binds path.name) :
    Calm binds fails (fun _ => True) (executePop path : Action σ Unit) := by
  rw [executePop_eq]
  refine .bind (.onStack .pop ordinary) fun value _ => ?_
  split
  · exact bind_calm named value
  · refine .bind .getContext fun context _ => ?_
    split
    · exact .fail (ordinary _ trivial)
    · rename_i target _
      split
      · rename_i failed
        exact .fail (ordinary _ (Path.steps_ordinary failed))
      · rename_i steps _
        refine .bind (.onStack (Slot.write_frugal value target steps) ordinary) fun written _ => ?_
        exact rebind_calm path.name written

theorem executeOperator_calm (op : Control) :
    Calm binds fails (fun _ => True) (executeOperator op : Action σ Unit) := by
  refine .bind (.onStack .pop ordinary) fun a _ => ?_
  refine .bind (.onStack .pop ordinary) fun b _ => ?_
  have ended := combine_ends .free op a b
  cases combined : combine op a b with
  | ok value => exact .push value
  | error fault =>
    rw [combined] at ended
    exact .fail (ordinary fault ended)

end Parts

/-- The flow after an instruction: only a `#return` leaves the program. -/
def FlowsAs (instruction : Instruction) (flow : Flow) : Prop :=
  flow = .leave ↔ instruction.Leaves

theorem flowsAs_next {instruction : Instruction} (stays : ¬ instruction.Leaves) :
    FlowsAs instruction .next := by
  constructor
  · intro leaves
    cases leaves
  · intro leaves
    exact absurd leaves stays

theorem executeControl_calm [Host σ] (text : String) (op : Control) :
    Calm (σ := σ) (Instruction.Binds (.token text (.control op)))
      (Instruction.Raises (.token text (.control op))) (FlowsAs (.token text (.control op)))
      (executeControl op) := by
  have ordinary : ∀ fault : Fault, fault.Ordinary →
      Instruction.Raises (.token text (.control op)) fault := fun _ => .ordinary
  have next (other : op ≠ .leave) : FlowsAs (.token text (.control op)) .next := by
    apply flowsAs_next
    rintro ⟨_, same⟩
    cases same
    exact other rfl
  cases op with
  | nop | multiply | divide => exact .pure (next (by decide))
  | leave => exact .pure (iff_of_true rfl ⟨text, rfl⟩)
  | exit => exact .fail (.terminated ⟨text, rfl⟩)
  | flush =>
    have flushed : Calm (σ := σ) (Instruction.Binds (.token text (.control .flush)))
        (Instruction.Raises (.token text (.control .flush))) (fun _ => True)
        (Action.modifyContext fun context => { context with stack := [] }) :=
      .of_run fun _ => ⟨.of_tables rfl rfl rfl rfl, trivial⟩
    exact .bind flushed fun _ _ => .pure (next (by decide))
  | put =>
    refine .bind (.onStack .pop ordinary) fun value _ => ?_
    exact .bind (.modifyHost _) fun _ _ => .pure (next (by decide))
  | clear => exact .bind (.modifyHost _) fun _ _ => .pure (next (by decide))
  | add => exact .bind (executeOperator_calm ordinary .add) fun _ _ => .pure (next (by decide))
  | subtract =>
    exact .bind (executeOperator_calm ordinary .subtract) fun _ _ => .pure (next (by decide))

/-! ## Calls -/

/-- The machine with another stack. -/
def withStack (machine : Machine σ) (stack : Stack) : Machine σ :=
  { machine with context := { machine.context with stack } }

/-- On this machine the instruction calls the body, which starts on the second machine. A
call by name takes it from the table of functions. A method call takes it from a slot of
a variable, and has then popped the indexes of the path and pushed the variable. -/
inductive Invokes (machine : Machine σ) : Instruction → Body → Machine σ → Prop
  | call {text name : String} {body : Body}
      (found : Entries.find? name machine.context.functions = some body) :
      Invokes machine (.token text (.call name)) body machine
  | method {text : String} {path : Path} {receiver : Value} {steps : List Step} {body : Body}
      {stack : Stack} (bound : Entries.find? path.name machine.context.bindings = some receiver)
      (resolved : path.steps machine.context.bindings = .ok steps)
      (found : (Slot.read receiver steps).run machine.context.stack =
        (.ok (some (.function body)), stack)) :
      Invokes machine (.token text (.method path)) body ((machine.withStack stack).pushed receiver)

namespace Invokes

variable {machine next : Machine σ} {instruction : Instruction} {body : Body}

theorem steady (invokes : Invokes machine instruction body next) (binds : String → Prop) :
    machine.Steady binds next := by
  cases invokes with
  | call found => exact .refl machine
  | method bound resolved found => exact .of_tables rfl rfl rfl rfl

/-- A body in an obedient context may be called, and starts in an obedient context. -/
theorem obeys {d : Discipline} (lawful : d.Lawful) (invokes : Invokes machine instruction body next)
    (allowed : Piece.All d.ok (.instruction instruction)) (obeys : machine.context.Obeys d) :
    next.context.Obeys d ∧ d.Calls body := by
  cases invokes with
  | call found => exact ⟨obeys, lawful.call allowed.self obeys.functions found⟩
  | @method text path receiver steps body stack bound resolved found =>
    have root : d.Allows receiver := obeys.bindings _ (Entries.mem_of_find? bound)
    obtain ⟨popped, finds⟩ := Discipline.read_ensures lawful root steps _ obeys.stack
    rw [found] at popped finds
    have rest : (machine.withStack stack).context.Obeys d := { obeys with stack := popped }
    exact ⟨rest.push root, Discipline.calls_of_allows lawful (finds _ rfl)⟩

end Invokes

/-- What calling a native does. The context is looked at when the native has succeeded, and
not when it has failed. -/
theorem run_invoke_native (settings : Settings σ) (call : Program → Action σ Unit) (name : String)
    (machine : Machine σ) :
    (invoke settings call (.native name)).run machine =
      match (settings.natives name).run (machine.context, machine.host) with
      | (.error failure, state) => (.error failure, machine.changed state)
      | (.ok _, state) =>
        if state.1.isValid then (.ok (), machine.changed state)
        else (.error { fault := .unsafeContext }, machine.changed state) := by
  simp only [invoke, Work.run_bind, Action.run_runNative, Action.run_getContext]
  rcases (settings.natives name).run (machine.context, machine.host) with ⟨failure | _, state⟩
  · rfl
  · cases valid : state.1.isValid with
    | true => simp [Except.mapError, changed, valid]
    | false => simp [Except.mapError, changed, valid, Action.fail, Work.run_throw]

/-- What an instruction does that calls nothing. -/
structure Plain (instruction : Instruction) (before : Machine σ) (result : Except Failure Flow)
    (after : Machine σ) : Prop where
  steady : before.Steady instruction.Binds after
  ends : Work.Ends (fun failure => failure.trail = [] ∧ instruction.Raises failure.fault)
    (FlowsAs instruction) result
  obeys : ∀ d : Discipline, d.Lawful → Piece.All d.ok (.instruction instruction) →
    before.context.Obeys d → after.context.Obeys d

variable [Host σ]

/-- An instruction that calls a function does what the function does, and goes on after it. -/
theorem Invokes.runs {machine next : Machine σ} {instruction : Instruction} {body : Body}
    (invokes : Invokes machine instruction body next) (settings : Settings σ)
    (call : Program → Action σ Unit) :
    (execute settings call instruction).run machine =
      (invoke settings call body >>= fun _ => pure Flow.next).run next := by
  cases invokes with
  | call found =>
    simp only [execute, executeToken, executeCall, Work.run_bind, Action.run_getContext, found]
  | method bound resolved found =>
    simp only [execute, executeToken, executeMethod, Work.run_bind, Action.run_getContext, bound,
      resolved, Action.run_onStack, found]
    rfl

/-- An instruction whose outcome does not hang on the functions called calls none. -/
theorem plain_of_run {instruction : Instruction} {before after : Machine σ}
    {result : Except Failure Flow}
    (runs : ∀ settings call, (execute settings call instruction).run before = (result, after))
    (steady : before.Steady instruction.Binds after)
    (ends : Work.Ends (fun failure : Failure => failure.trail = [] ∧ instruction.Raises failure.fault)
      (FlowsAs instruction) result) :
    Plain instruction before result after := by
  refine ⟨steady, ends, ?_⟩
  intro d lawful allowed obeys
  -- any functions will do, so take some that do nothing
  let settings : Settings σ := { natives := fun _ => (pure () : OnHost σ Unit) }
  let call : Program → Action σ Unit := fun _ => pure ()
  have agree : (Pairing.alone d).Agree settings settings :=
    ⟨fun _ _ => Work.InStep.pure trivial, .inl rfl⟩
  have calls : ∀ program, d.Runs program →
      (Pairing.alone d).Together (fun _ => True) (call program) (call program) :=
    fun _ _ => Work.InStep.pure trivial
  have together := execute_together (Pairing.alone_lawful lawful) agree calls allowed
  have kept := Pairing.Together.keeps together before obeys
  rw [runs] at kept
  exact kept.1

/-- What the instruction does on the machine does not hang on the functions called. -/
def CallsNothing (instruction : Instruction) (machine : Machine σ) : Prop :=
  ∃ result after, Plain instruction machine result after ∧
    ∀ settings call, (execute settings call instruction).run machine = (result, after)

/-- The instruction calls a function, and goes on after it. -/
def CallsBody (instruction : Instruction) (machine : Machine σ) : Prop :=
  ∃ body next, Invokes machine instruction body next ∧
    ∀ settings call, (execute settings call instruction).run machine =
      (invoke settings call body >>= fun _ => pure Flow.next).run next

theorem CallsNothing.of_calm {instruction : Instruction} {work : Action σ Flow}
    (same : ∀ settings call, execute settings call instruction = work)
    (calm : Calm instruction.Binds instruction.Raises (FlowsAs instruction) work)
    (machine : Machine σ) : CallsNothing instruction machine := by
  obtain ⟨steady, ends⟩ := calm machine machine (.refl machine)
  have runs : ∀ settings call, (execute settings call instruction).run machine =
      ((work.run machine).1, (work.run machine).2) := by
    intro settings call
    rw [same]
    rfl
  exact ⟨_, _, plain_of_run runs steady ends, runs⟩

/-- A call that fails before it has found a function. -/
theorem CallsNothing.of_fail {instruction : Instruction} {machine : Machine σ} {stack : Stack}
    {fault : Fault} (runs : ∀ settings call, (execute settings call instruction).run machine =
      (.error { fault }, machine.withStack stack)) (ordinary : fault.Ordinary) :
    CallsNothing instruction machine :=
  ⟨_, _, plain_of_run runs (.of_tables rfl rfl rfl rfl) ⟨rfl, .ordinary ordinary⟩, runs⟩

/-! ## Every instruction -/

theorem call_cases (text name : String) (machine : Machine σ) :
    CallsNothing (.token text (.call name)) machine ∨ CallsBody (.token text (.call name)) machine := by
  cases found : Entries.find? name machine.context.functions with
  | none =>
    left
    have runs : ∀ settings call, (execute settings call (.token text (.call name))).run machine =
        (.error { fault := .undefinedFunction name }, machine.withStack machine.context.stack) := by
      intro settings call
      simp only [execute, executeToken, executeCall, Work.run_bind, Action.run_getContext, found]
      rfl
    exact .of_fail runs trivial
  | some body =>
    right
    exact ⟨body, machine, .call found, (Invokes.call found).runs⟩

theorem method_cases (text : String) (path : Path) (machine : Machine σ) :
    CallsNothing (.token text (.method path)) machine ∨
      CallsBody (.token text (.method path)) machine := by
  cases bound : Entries.find? path.name machine.context.bindings with
  | none =>
    left
    have runs : ∀ settings call, (execute settings call (.token text (.method path))).run machine =
        (.error { fault := .unboundReceiver path.name }, machine.withStack machine.context.stack) := by
      intro settings call
      simp only [execute, executeToken, executeMethod, Work.run_bind, Action.run_getContext, bound]
      rfl
    exact .of_fail runs trivial
  | some receiver =>
    cases resolved : path.steps machine.context.bindings with
    | error fault =>
      left
      have runs : ∀ settings call, (execute settings call (.token text (.method path))).run machine =
          (.error { fault }, machine.withStack machine.context.stack) := by
        intro settings call
        simp only [execute, executeToken, executeMethod, Work.run_bind, Action.run_getContext, bound,
          resolved]
        rfl
      exact .of_fail runs (Path.steps_ordinary resolved)
    | ok steps =>
      have ordinary := (Slot.read_frugal receiver steps).faults machine.context.stack
      rcases read : (Slot.read receiver steps).run machine.context.stack with ⟨fault | slot, stack⟩
      · left
        rw [read] at ordinary
        have runs : ∀ settings call, (execute settings call (.token text (.method path))).run machine =
            (.error { fault }, machine.withStack stack) := by
          intro settings call
          simp only [execute, executeToken, executeMethod, Work.run_bind, Action.run_getContext, bound,
            resolved, Action.run_onStack, read]
          rfl
        exact .of_fail runs ordinary
      · by_cases function : ∃ body, slot = some (.function body)
        · right
          obtain ⟨body, rfl⟩ := function
          exact ⟨body, _, .method bound resolved read, (Invokes.method bound resolved read).runs⟩
        · left
          have runs : ∀ settings call,
              (execute settings call (.token text (.method path))).run machine =
                (.error { fault := .notAFunction path.text (slot.map Value.type) },
                  machine.withStack stack) := by
            intro settings call
            simp only [execute, executeToken, executeMethod, Work.run_bind, Action.run_getContext, bound,
              resolved, Action.run_onStack, read]
            cases slot with
            | none => rfl
            | some value =>
              cases value with
              | function body => exact absurd ⟨body, rfl⟩ function
              | _ => rfl
          exact .of_fail runs trivial

/-- **An instruction calls a function or calls nothing**, and which of the two, and which
function, is settled by the machine alone. -/
theorem execute_cases (instruction : Instruction) (machine : Machine σ) :
    CallsNothing instruction machine ∨ CallsBody instruction machine := by
  have ordinary : ∀ fault : Fault, fault.Ordinary → instruction.Raises fault := fun _ => .ordinary
  cases instruction with
  | value held =>
    left
    have next : FlowsAs (.value held) .next := flowsAs_next nofun
    exact .of_calm (fun _ _ => rfl) (.bind (.push held) fun _ _ => .pure next) machine
  | literal tree =>
    left
    have next : FlowsAs (.literal tree) .next := flowsAs_next nofun
    refine .of_calm (fun _ _ => rfl) (.bind .getContext fun context _ => ?_) machine
    refine .bind (.onStack (construct_frugal context.bindings tree) ordinary) fun value _ => ?_
    exact .bind (.push value) fun _ _ => .pure next
  | invalid tree fault =>
    left
    exact .of_calm (fun _ _ => rfl) (.fail (.stored rfl)) machine
  | token text read =>
    cases read with
    | push path =>
      left
      have next : FlowsAs (.token text (.push path)) .next := flowsAs_next nofun
      exact .of_calm (fun _ _ => rfl) (.bind (executePush_calm ordinary path) fun _ _ => .pure next)
        machine
    | pop path =>
      left
      have next : FlowsAs (.token text (.pop path)) .next := flowsAs_next nofun
      have named : Instruction.Binds (.token text (.pop path)) path.name := ⟨text, path, rfl, rfl⟩
      exact .of_calm (fun _ _ => rfl)
        (.bind (executePop_calm ordinary named) fun _ _ => .pure next) machine
    | control op =>
      left
      exact .of_calm (fun _ _ => rfl) (executeControl_calm text op) machine
    | call name => exact call_cases text name machine
    | method path => exact method_cases text path machine

end Machine

/-! ## The natives of a session -/

namespace Native

variable [Host σ]

/-- The variables and functions of a context that a native works on. -/
def Tables (bindings : List (String × Value)) (functions : List (String × Body))
    (state : Context × σ) : Prop :=
  state.1.bindings = bindings ∧ state.1.functions = functions

variable {bindings : List (String × Value)} {functions : List (String × Body)} {fails : Failure → Prop}

theorem emit_ensures (line : String) :
    Ensures (Tables bindings functions) fails (fun _ => True) (emit line : Native σ) :=
  fun _ tables => ⟨tables, trivial⟩

theorem help_ensures : Ensures (Tables bindings functions) fails (fun _ => True) (help : Native σ) := by
  unfold help
  generalize helpLines = lines
  induction lines with
  | nil => exact .pure trivial
  | cons line lines ih => exact .bind (emit_ensures line) fun _ _ => ih

theorem readLine_ensures :
    Ensures (Tables bindings functions)
      (fun failure => failure.trail = [] ∧ failure.fault.Ordinary) (fun _ => True)
      (readLine : Native σ) := by
  rintro ⟨⟨stack, _, _⟩, host⟩ ⟨rfl, rfl⟩
  cases stack with
  | nil => exact ⟨⟨rfl, rfl⟩, rfl, trivial⟩
  | cons value rest =>
    cases value with
    | text message =>
      rw [run_readLine]
      rcases Host.ask message host with ⟨_ | answer, after⟩
      · exact ⟨⟨rfl, rfl⟩, rfl, trivial⟩
      · exact ⟨⟨rfl, rfl⟩, trivial⟩
    | _ => exact ⟨⟨rfl, rfl⟩, rfl, trivial⟩

/-- The natives of a session leave variables and functions alone, and fail by themselves. -/
theorem standard_ensures (name : String) :
    Ensures (Tables bindings functions)
      (fun failure => failure.trail = [] ∧ failure.fault.Ordinary) (fun _ => True)
      (standard name : Native σ) := by
  by_cases dump : name = "stack-dump"
  · subst dump
    exact fun _ tables => ⟨tables, trivial⟩
  by_cases helps : name = "help"
  · subst helps
    exact help_ensures
  by_cases asks : name = "read-line"
  · subst asks
    exact readLine_ensures
  · simp only [standard]
    exact .throw ⟨rfl, trivial⟩

/-- The same, of one run. -/
theorem standard_run {name : String} {before after : Context} {host host' : σ}
    {result : Except Failure Unit}
    (ran : (standard name).run (before, host) = (result, after, host')) :
    after.bindings = before.bindings ∧ after.functions = before.functions ∧
      ∀ failure, result = .error failure → failure.trail = [] ∧ failure.fault.Ordinary := by
  have ensured : Ensures (Tables before.bindings before.functions)
      (fun failure : Failure => failure.trail = [] ∧ failure.fault.Ordinary) (fun _ => True)
      (standard name : Native σ) := standard_ensures name
  obtain ⟨⟨bindings, functions⟩, ended⟩ := ensured (before, host) ⟨rfl, rfl⟩
  rw [ran] at bindings functions ended
  refine ⟨bindings, functions, ?_⟩
  rintro failure rfl
  exact ended

end Native

end StackScript
