/-
# StackScript.Proofs.Simulation — two machines run one program

A pairing says how two machines stand to each other while they run the same
program: the second may have more values under its stack, the hosts are in some
relation, and the contexts are otherwise the same. Where the laws of the pairing
hold, the two go together to the end of the program, or the first escapes
(`Machine.evaluate_together`).

The first context is under a discipline, because not every instruction is blind to
what lies under the stack. The laws ask that such an instruction is either forbidden
or has nothing there to see. A machine beside itself shows what one run keeps
(`Machine.evaluate_keeps`).
-/
import StackScript.Proofs.Machine

namespace StackScript

set_option autoImplicit false

open Work (Ensures InStep)

/-- The context with further values under its stack. -/
def Context.atop (beneath : Stack) (context : Context) : Context :=
  { context with stack := context.stack ++ beneath }

structure Pairing (σ τ : Type) where
  /-- What the first context obeys. -/
  discipline : Discipline
  /-- What lies under the second stack, and not under the first. -/
  beneath : Stack
  hosts : σ → τ → Prop
  /-- Failures of the first machine after which nothing is promised. -/
  escapes : Failure → Prop

namespace Pairing

variable {σ τ α : Type}

structure Related (p : Pairing σ τ) (x : Machine σ) (y : Machine τ) : Prop where
  context : y.context = x.context.atop p.beneath
  host : p.hosts x.host y.host
  depth : y.depth = x.depth
  obeys : x.context.Obeys p.discipline

/-- The related contexts and hosts that natives see. -/
structure Sees (p : Pairing σ τ) (x : Context × σ) (y : Context × τ) : Prop where
  context : y.1 = x.1.atop p.beneath
  host : p.hosts x.2 y.2
  obeys : x.1.Obeys p.discipline

structure Lawful [Host σ] [Host τ] (p : Pairing σ τ) : Prop where
  discipline : p.discipline.Lawful
  emit : ∀ {first : σ} {second : τ} (line : String), p.hosts first second →
    p.hosts (Host.emit line first) (Host.emit line second)
  clear : ∀ {first : σ} {second : τ}, p.hosts first second →
    p.hosts (Host.clear first) (Host.clear second)
  ask : ∀ {first : σ} {second : τ} (message : String), p.hosts first second →
    (Host.ask message second).1 = (Host.ask message first).1 ∧
      p.hosts (Host.ask message first).2 (Host.ask message second).2
  within : ∀ {failure : Failure} (text : String), p.escapes failure → p.escapes (failure.within text)
  underflow : p.beneath = [] ∨
    ∀ failure : Failure, failure.fault.kind = .stackUnderflow → p.escapes failure
  flush : ∀ {text : String}, p.discipline.instruction (.token text (.control .flush)) → p.beneath = []
  stackDump : p.discipline.native "stack-dump" → p.beneath = []

/-- Two natives go together from what they see. -/
def Admits (p : Pairing σ τ) (first : Native σ) (second : Native τ) : Prop :=
  InStep p.Sees p.escapes (fun failure => p.discipline.fault failure.fault) (fun _ => True)
    first second

/-- Two actions go together from related machines. -/
def Together (p : Pairing σ τ) (returns : α → Prop) (first : Action σ α) (second : Action τ α) :
    Prop :=
  InStep p.Related p.escapes (fun failure => p.discipline.fault failure.fault) returns first second

/-- Nothing is promised when the first machine runs out of room for calls. -/
def DepthEscapes (p : Pairing σ τ) : Prop :=
  ∀ failure : Failure, failure.fault.kind = .callDepthExceeded → p.escapes failure

/-- The second machine has the same room for calls, or more where running out escapes. -/
def Fits (p : Pairing σ τ) (room room' : Nat) : Prop :=
  room' = room ∨ room ≤ room' ∧ p.DepthEscapes

namespace Fits

variable {p : Pairing σ τ} {room room' : Nat}

theorem sub (fits : p.Fits room room') (depth : Nat) : p.Fits (room - depth) (room' - depth) := by
  rcases fits with rfl | ⟨more, escapes⟩
  · exact .inl rfl
  · exact .inr ⟨by omega, escapes⟩

theorem pred (fits : p.Fits (room + 1) room') : ∃ rest, room' = rest + 1 ∧ p.Fits room rest := by
  refine ⟨room' - 1, ?_, fits.sub 1⟩
  rcases fits with rfl | ⟨more, _⟩ <;> omega

theorem eq (fits : p.Fits room room') (promised : ¬ p.DepthEscapes) : room' = room :=
  fits.resolve_right fun more => promised more.2

end Fits

/-- What the settings of two machines share. Each may trace its own run. -/
structure Agree (p : Pairing σ τ) (settings : Settings σ) (settings' : Settings τ) : Prop where
  natives : ∀ name, p.discipline.native name →
    p.Admits (settings.natives name) (settings'.natives name)
  limit : p.Fits settings.limit settings'.limit

end Pairing

/-! ## Actions -/

namespace Action

variable {σ τ α β : Type} {p : Pairing σ τ} {returns : α → Prop}

theorem fail_together {fault : Fault} (allowed : p.discipline.fault fault) :
    p.Together returns (fail fault) (fail fault) :=
  .throw allowed

/-- What follows a look at the context may use what the context obeys. -/
theorem getContext_together {next : Context → Action σ α} {next' : Context → Action τ α}
    (rest : ∀ context : Context, context.Obeys p.discipline →
      p.Together returns (next context) (next' (context.atop p.beneath))) :
    p.Together returns (getContext >>= next) (getContext >>= next') := by
  intro x y related
  rw [Work.run_bind_ok (run_getContext x), Work.run_bind_ok (run_getContext y), related.context]
  exact rest x.context related.obeys x y related

theorem modifyContext_together {change : Context → Context}
    (obeys : ∀ context, context.Obeys p.discipline → (change context).Obeys p.discipline)
    (commutes : ∀ context, change (context.atop p.beneath) = (change context).atop p.beneath) :
    p.Together (fun _ => True) (modifyContext change) (modifyContext change) := by
  intro x y related
  refine .inr ⟨trivial, { y with context := change y.context }, rfl, ?_⟩
  exact { related with
    context := related.context ▸ commutes x.context
    obeys := obeys x.context related.obeys }

theorem modifyHost_together {change : σ → σ} {change' : τ → τ}
    (keeps : ∀ first second, p.hosts first second → p.hosts (change first) (change' second)) :
    p.Together (fun _ => True) (modifyHost change) (modifyHost change') := by
  intro x y related
  refine .inr ⟨trivial, { y with host := change' y.host }, rfl, ?_⟩
  exact { related with host := keeps x.host y.host related.host }

theorem push_together {value : Value} (allowed : p.discipline.Allows value) :
    p.Together (fun _ => True) (push value) (push value) :=
  modifyContext_together (fun _ obeys => obeys.push allowed) fun _ => rfl

theorem runNative_together {native : Native σ} {native' : Native τ}
    (admitted : p.Admits native native') :
    p.Together (fun _ => True) (runNative native) (runNative native') := by
  refine admitted.wrap (fun machine => (machine.context, machine.host))
    (fun machine => (machine.context, machine.host)) Machine.changed Machine.changed id
    (run_runNative native) (run_runNative native') ?_ ?_ (fun _ => id) fun _ => id
  · intro x y related
    exact ⟨related.context, related.host, related.obeys⟩
  · intro x y x' y' related sees
    exact ⟨sees.context, sees.host, related.depth, sees.obeys⟩

theorem deeper_together {first : Action σ α} {second : Action τ α}
    (together : p.Together returns first second) :
    p.Together returns (deeper first) (deeper second) := by
  refine together.wrap Machine.entered Machine.entered (fun _ => Machine.left) (fun _ => Machine.left)
    id (run_deeper first) (run_deeper second) ?_ ?_ (fun _ => id) fun _ => id
  · intro x y related
    exact { related with depth := congrArg (· + 1) related.depth }
  · intro x y x' y' _ left
    exact { left with depth := congrArg (· - 1) left.depth }

variable [Host σ] [Host τ] (lawful : p.Lawful)

include lawful

theorem within_together {first : Action σ α} {second : Action τ α}
    (together : p.Together returns first second) (instruction : Instruction) :
    p.Together returns (within instruction first) (within instruction second) := by
  refine together.wrap id id (fun _ machine => machine) (fun _ machine => machine)
    (·.within instruction.text) (run_within instruction first) (run_within instruction second)
    (fun _ _ related => related) (fun _ _ _ _ _ related => related) ?_ ?_
  · intro failure escaped
    exact lawful.within _ escaped
  · intro failure allowed
    rwa [fault_within]

theorem onStack_together {work : OnStack α} (frugal : work.Frugal)
    (ensured : Ensures p.discipline.Stacks p.discipline.fault returns work) :
    p.Together returns (onStack work) (onStack work) := by
  intro x y related
  obtain ⟨allowed, ended⟩ := ensured x.context.stack related.obeys.stack
  have stack : y.context.stack = x.context.stack ++ p.beneath := by rw [related.context]; rfl
  -- beneath what it pops, the work sees nothing; without enough to pop, it escapes
  have same : Work.Ends (fun fault => p.escapes { fault }) (fun _ => False) (work.run x.context.stack).1 ∨
      work.run y.context.stack =
        ((work.run x.context.stack).1, (work.run x.context.stack).2 ++ p.beneath) := by
    rcases lawful.underflow with nothing | escapes
    · exact .inr (by rw [stack, nothing, List.append_nil, List.append_nil]; rfl)
    · rcases frugal.beneath x.context.stack p.beneath with ⟨fault, failed, kind⟩ | same
      · exact .inl (by rw [failed]; exact escapes { fault } kind)
      · exact .inr (by rw [stack, same])
  rw [run_onStack]
  rcases same with escaped | same
  · left
    revert escaped
    rcases (work.run x.context.stack).1 with fault | result <;> exact id
  · right
    refine ⟨?_, _, by rw [run_onStack, same], ?_⟩
    · revert ended
      rcases (work.run x.context.stack).1 with fault | result <;> exact id
    · refine { related with context := ?_, obeys := { related.obeys with stack := allowed } }
      rw [related.context]
      rfl

theorem pop_together :
    p.Together p.discipline.Allows (onStack Stack.pop) (onStack Stack.pop) :=
  onStack_together lawful .pop (Discipline.pop_ensures lawful.discipline)

end Action

/-! ## Instructions -/

namespace Machine

variable {σ τ : Type} {p : Pairing σ τ}

theorem bind_together {name : String} {value : Value} (named : p.discipline.name name)
    (allowed : p.discipline.Allows value) :
    p.Together (fun _ => True) (executePop.bind name value) (executePop.bind name value) :=
  Action.modifyContext_together (fun _ obeys => obeys.bind named allowed) fun _ => rfl

theorem rebind_together (name : String) {value : Value} (allowed : p.discipline.Allows value) :
    p.Together (fun _ => True) (rebind name value) (rebind name value) :=
  Action.modifyContext_together (fun _ obeys => obeys.rebind name allowed) fun _ => rfl

variable [Host σ] [Host τ] (lawful : p.Lawful)

include lawful

theorem executePush_together (path : Path) :
    p.Together (fun _ => True) (executePush path) (executePush path) := by
  refine Action.getContext_together fun context obeys => ?_
  have resolved := Discipline.resolvePush_ensures lawful.discipline obeys.bindings path
  have popped := Action.onStack_together lawful (path.resolvePush_frugal context.bindings) resolved
  exact .bind popped fun value allowed => Action.push_together allowed

theorem executePop_together {path : Path} (named : p.discipline.name path.name) :
    p.Together (fun _ => True) (executePop path) (executePop path) := by
  rw [executePop_eq, executePop_eq]
  refine .bind (Action.pop_together lawful) fun value allowed => ?_
  split
  · exact bind_together named allowed
  · refine Action.getContext_together fun context obeys => ?_
    dsimp only [Context.atop]
    cases found : Entries.find? path.name context.bindings with
    | none => exact Action.fail_together (lawful.discipline.fault nofun)
    | some target =>
      have root : p.discipline.Allows target := obeys.bindings _ (Entries.mem_of_find? found)
      cases read : path.steps context.bindings with
      | error fault =>
        have ordinary := Path.steps_ordinary read
        exact Action.fail_together (lawful.discipline.fault ordinary.not_ofContext)
      | ok steps =>
        have written := Discipline.write_ensures lawful.discipline allowed root steps
        have popped := Action.onStack_together lawful (Slot.write_frugal value target steps) written
        exact .bind popped fun after good => rebind_together path.name good

theorem executeOperator_together (op : Control) :
    p.Together (fun _ => True) (executeOperator op) (executeOperator op) := by
  refine .bind (Action.pop_together lawful) fun a _ => ?_
  refine .bind (Action.pop_together lawful) fun b _ => ?_
  have ended := combine_ends p.discipline op a b
  cases combined : combine op a b with
  | ok value =>
    rw [combined] at ended
    exact Action.push_together ended
  | error fault =>
    rw [combined] at ended
    exact Action.fail_together (lawful.discipline.fault ended.not_ofContext)

theorem executeControl_together {text : String} {op : Control}
    (allowed : p.discipline.instruction (.token text (.control op))) :
    p.Together (fun _ => True) (executeControl op) (executeControl op) := by
  cases op with
  | nop | multiply | divide | leave => exact .pure trivial
  | exit => exact Action.fail_together (lawful.discipline.fault nofun)
  | flush =>
    have flushed : p.Together (fun _ => True)
        (Action.modifyContext fun context => { context with stack := [] })
        (Action.modifyContext fun context => { context with stack := [] }) := by
      refine Action.modifyContext_together (fun _ obeys => { obeys with stack := nofun }) ?_
      intro context
      rw [lawful.flush allowed]
      rfl
    exact .bind flushed fun _ _ => .pure trivial
  | put =>
    refine .bind (Action.pop_together lawful) fun value _ => ?_
    have emitted := Action.modifyHost_together fun _ _ => lawful.emit value.output
    exact .bind emitted fun _ _ => .pure trivial
  | clear =>
    have cleared := Action.modifyHost_together fun _ _ => lawful.clear
    exact .bind cleared fun _ _ => .pure trivial
  | add => exact .bind (executeOperator_together lawful .add) fun _ _ => .pure trivial
  | subtract => exact .bind (executeOperator_together lawful .subtract) fun _ _ => .pure trivial

/-! ## Calls -/

/-- The check of a context before a program, and after a native. -/
theorem check_together {context : Context} (obeys : context.Obeys p.discipline)
    {first : Action σ Unit} {second : Action τ Unit}
    (together : p.Together (fun _ => True) first second) (fault : Fault) :
    p.Together (fun _ => True) (if context.isValid then first else Action.fail fault)
      (if (context.atop p.beneath).isValid then second else Action.fail fault) := by
  have same : (context.atop p.beneath).isValid = context.isValid := rfl
  rw [same]
  cases valid : context.isValid with
  | true => exact together
  | false =>
    rcases lawful.discipline.valid obeys.names obeys.functions with sound | anything
    · rw [valid] at sound
      cases sound
    · exact Action.fail_together (anything fault)

section Calls

variable {settings : Settings σ} {settings' : Settings τ} (agree : p.Agree settings settings')
  {call : Program → Action σ Unit} {call' : Program → Action τ Unit}
  (calls : ∀ program, p.discipline.Runs program →
    p.Together (fun _ => True) (call program) (call' program))

include agree calls

theorem invoke_together {body : Body} (callable : p.discipline.Calls body) :
    p.Together (fun _ => True) (invoke settings call body) (invoke settings' call' body) := by
  cases body with
  | program program => exact calls program callable
  | native name =>
    refine .bind (Action.runNative_together (agree.natives name callable)) fun _ _ => ?_
    refine Action.getContext_together fun context obeys => ?_
    exact check_together lawful obeys (.pure trivial) .unsafeContext

theorem executeCall_together {text name : String}
    (allowed : p.discipline.instruction (.token text (.call name))) :
    p.Together (fun _ => True) (executeCall settings call name) (executeCall settings' call' name) := by
  refine Action.getContext_together fun context obeys => ?_
  dsimp only [Context.atop]
  cases found : Entries.find? name context.functions with
  | none => exact Action.fail_together (lawful.discipline.fault nofun)
  | some body =>
    have callable := lawful.discipline.call allowed obeys.functions found
    exact invoke_together lawful agree calls callable

theorem executeMethod_together (path : Path) :
    p.Together (fun _ => True) (executeMethod settings call path)
      (executeMethod settings' call' path) := by
  refine Action.getContext_together fun context obeys => ?_
  dsimp only [Context.atop]
  cases found : Entries.find? path.name context.bindings with
  | none => exact Action.fail_together (lawful.discipline.fault nofun)
  | some receiver =>
    have root : p.discipline.Allows receiver := obeys.bindings _ (Entries.mem_of_find? found)
    cases read : path.steps context.bindings with
    | error fault =>
      have ordinary := Path.steps_ordinary read
      exact Action.fail_together (lawful.discipline.fault ordinary.not_ofContext)
    | ok steps =>
      have ensured := Discipline.read_ensures lawful.discipline root steps
      have popped := Action.onStack_together lawful (Slot.read_frugal receiver steps) ensured
      refine .bind popped fun slot finds => ?_
      have missing (found : Option ValueType) :
          p.discipline.fault (.notAFunction path.text found) :=
        lawful.discipline.fault nofun
      cases slot with
      | none => exact Action.fail_together (missing _)
      | some value =>
        cases value with
        | function body =>
          have callable := Discipline.calls_of_allows lawful.discipline (finds _ rfl)
          refine .bind (Action.push_together root) fun _ _ => ?_
          exact invoke_together lawful agree calls callable
        | _ => exact Action.fail_together (missing _)

theorem executeToken_together {text : String} {read : Token}
    (allowed : p.discipline.instruction (.token text read)) :
    p.Together (fun _ => True) (executeToken settings call read)
      (executeToken settings' call' read) := by
  cases read with
  | push path => exact .bind (executePush_together lawful path) fun _ _ => .pure trivial
  | pop path =>
    have named := lawful.discipline.pop allowed
    exact .bind (executePop_together lawful named) fun _ _ => .pure trivial
  | method path =>
    exact .bind (executeMethod_together lawful agree calls path) fun _ _ => .pure trivial
  | call name =>
    exact .bind (executeCall_together lawful agree calls allowed) fun _ _ => .pure trivial
  | control op => exact executeControl_together lawful allowed

/-- Two machines go together over one instruction. -/
theorem execute_together {instruction : Instruction}
    (allowed : Piece.All p.discipline.ok (.instruction instruction)) :
    p.Together (fun _ => True) (execute settings call instruction)
      (execute settings' call' instruction) := by
  cases instruction with
  | value held =>
    have inner : p.discipline.Allows held := (Piece.all_held.mp allowed).2
    exact .bind (Action.push_together inner) fun _ _ => .pure trivial
  | literal tree =>
    refine Action.getContext_together fun context obeys => ?_
    have literal := (Piece.all_tree.mp allowed).2
    have constructed := Discipline.construct_ensures lawful.discipline obeys.bindings literal
    have popped := Action.onStack_together lawful (construct_frugal context.bindings tree) constructed
    refine .bind popped fun value good => ?_
    exact .bind (Action.push_together good) fun _ _ => .pure trivial
  | token text read => exact executeToken_together lawful agree calls allowed.self
  | invalid tree fault => exact Action.fail_together (lawful.discipline.invalid allowed.self)

/-! ## Programs -/

omit [Host σ] [Host τ] lawful agree calls in
/-- A record in the trace changes nothing that is related. -/
theorem observe_together (settings : Settings σ) (settings' : Settings τ) (position : Nat)
    (instruction : Instruction) :
    p.Together (fun _ => True) (observe settings position instruction)
      (observe settings' position instruction) := by
  intro x y related
  unfold observe
  cases settings.tracing <;> cases settings'.tracing <;>
    exact .inr ⟨trivial, _, rfl, { related with }⟩

theorem run_together {program : Program} (allowed : p.discipline.Runs program) (position : Nat) :
    p.Together (fun _ => True) (run settings call position program)
      (run settings' call' position program) := by
  induction program generalizing position with
  | nil => exact .pure trivial
  | cons instruction rest ih =>
    obtain ⟨first, others⟩ := List.forall_mem_cons.mp allowed
    refine .bind (observe_together settings settings' position instruction) fun _ _ => ?_
    have executed := execute_together lawful agree calls first
    refine .bind (Action.within_together lawful executed instruction) fun flow _ => ?_
    cases flow with
    | next => exact ih others (position + 1)
    | leave => exact .pure trivial

omit agree calls in
theorem prepare_together {program : Program} (allowed : p.discipline.Runs program) :
    p.Together (fun _ => True) (prepare program) (prepare program) := by
  refine Action.getContext_together fun context obeys => ?_
  refine check_together lawful obeys (Action.modifyContext_together ?_ ?_) .invalidApi
  · exact fun _ obeys => obeys.bindMain lawful.discipline allowed
  · intro context
    simp only [Context.bindMain, Context.atop]
    cases Entries.find? Context.mainName context.functions <;> rfl

omit calls in
theorem evaluateWithin_together {room room' : Nat} (fits : p.Fits room room') {program : Program}
    (allowed : p.discipline.Runs program) :
    p.Together (fun _ => True) (evaluateWithin settings room program)
      (evaluateWithin settings' room' program) := by
  -- the induction is on the room that the limit leaves: a call takes one of it
  induction room generalizing room' program with
  | zero =>
    by_cases escapes : p.DepthEscapes
    · obtain ⟨rest, begins⟩ : ∃ rest, evaluateWithin settings' room' program =
          (do prepare program; rest) := by
        cases room' <;> exact ⟨_, rfl⟩
      rw [begins]
      refine .bind (prepare_together lawful allowed) fun _ _ x y _ => ?_
      exact .inl (escapes _ rfl)
    · obtain rfl : room' = 0 := fits.eq escapes
      refine .bind (prepare_together lawful allowed) fun _ _ => ?_
      rw [agree.limit.eq escapes]
      exact Action.fail_together (lawful.discipline.fault nofun)
  | succ room ih =>
    obtain ⟨rest, rfl, less⟩ := fits.pred
    refine .bind (prepare_together lawful allowed) fun _ _ => ?_
    have ran := run_together lawful agree (fun program allowed => ih less allowed) allowed 0
    exact Action.deeper_together ran

omit calls in
/-- **Two machines go together to the end of a program**, unless the first escapes. -/
theorem evaluate_together {program : Program} (allowed : p.discipline.Runs program) :
    p.Together (fun _ => True) (evaluate settings program) (evaluate settings' program) := by
  intro x y related
  have fits : p.Fits (settings.limit - x.depth) (settings'.limit - y.depth) := by
    rw [related.depth]
    exact agree.limit.sub x.depth
  exact evaluateWithin_together lawful agree fits allowed x y related

end Calls

end Machine

/-! ## Natives -/

namespace Native

variable {σ τ : Type} [Host σ] [Host τ] {p : Pairing σ τ} (lawful : p.Lawful)

include lawful

theorem emit_together (line : String) : p.Admits (emit line) (emit line) := by
  intro x y sees
  refine .inr ⟨trivial, (y.1, Host.emit line y.2), rfl, ?_⟩
  exact { sees with host := lawful.emit line sees.host }

theorem stackDump_together (nothing : p.beneath = []) : p.Admits stackDump stackDump := by
  intro x y sees
  have same : y.1.stack = x.1.stack := by
    rw [sees.context, nothing]
    exact List.append_nil _
  refine .inr ⟨trivial, _, rfl, { sees with host := ?_ }⟩
  show p.hosts (Host.emit (String.intercalate "; " (x.1.stack.reverse.map Value.output)) x.2)
    (Host.emit (String.intercalate "; " (y.1.stack.reverse.map Value.output)) y.2)
  rw [same]
  exact lawful.emit _ sees.host

theorem help_together : p.Admits help help := by
  unfold help
  generalize helpLines = lines
  induction lines with
  | nil => exact .pure trivial
  | cons line lines ih => exact .bind (emit_together lawful line) fun _ _ => ih

omit lawful [Host τ] in
theorem run_readLine (message : String) (rest : Stack) (bindings : List (String × Value))
    (functions : List (String × Body)) (host : σ) :
    (readLine : Native σ).run (⟨.text message :: rest, bindings, functions⟩, host) =
      match Host.ask message host with
      | (some answer, host) => (.ok (), ⟨.text answer :: rest, bindings, functions⟩, host)
      | (none, host) => (.error { fault := .inputExhausted }, ⟨rest, bindings, functions⟩, host) := by
  change (match Host.ask message host with
    | (some answer, host) => set (Context.mk (.text answer :: rest) bindings functions, host)
    | (none, host) => do
      set (Context.mk rest bindings functions, host)
      throw { fault := .inputExhausted } : OnHost σ Unit).run _ = _
  rcases Host.ask message host with ⟨_ | answer, host⟩ <;> rfl

theorem readLine_together : p.Admits readLine readLine := by
  rintro ⟨⟨stack, bindings, functions⟩, host⟩ ⟨_, host'⟩ ⟨rfl, hosts, obeys⟩
  cases stack with
  | nil =>
    rcases lawful.underflow with nothing | escapes
    · refine .inr ⟨lawful.discipline.fault nofun, _, ?_, rfl, hosts, obeys⟩
      rw [nothing]
      rfl
    · exact .inl (escapes _ rfl)
  | cons value rest =>
    obtain ⟨_, below⟩ := List.forall_mem_cons.mp obeys.stack
    have popped : Context.Obeys p.discipline ⟨rest, bindings, functions⟩ := { obeys with stack := below }
    have text (answer : String) : p.discipline.Allows (.text answer) :=
      Discipline.allows_scalar rfl (by intro same; cases same)
    cases value with
    | text message =>
      have asked : (Host.ask message host').1 = (Host.ask message host).1 ∧
          p.hosts (Host.ask message host).2 (Host.ask message host').2 :=
        lawful.ask message hosts
      have ran := run_readLine message (rest ++ p.beneath) bindings functions host'
      rw [run_readLine]
      rcases asks : Host.ask message host with ⟨_ | answer, after⟩ <;>
        rcases asks' : Host.ask message host' with ⟨answer', after'⟩ <;>
        rw [asks, asks'] at asked <;> rw [asks'] at ran <;> obtain ⟨rfl, hosts⟩ := asked
      · exact .inr ⟨lawful.discipline.fault nofun, _, ran, rfl, hosts, popped⟩
      · exact .inr ⟨trivial, _, ran, rfl, hosts, popped.push (text answer)⟩
    | _ => exact .inr ⟨lawful.discipline.fault nofun, _, rfl, rfl, hosts, popped⟩

/-- The natives of every session go together, but for `stack-dump`, which sees what
lies under the stack. -/
theorem standard_together (name : String) (allowed : p.discipline.native name) :
    p.Admits (standard name) (standard name) := by
  by_cases dump : name = "stack-dump"
  · subst dump
    exact stackDump_together lawful (lawful.stackDump allowed)
  by_cases help : name = "help"
  · subst help
    exact help_together lawful
  by_cases readLine : name = "read-line"
  · subst readLine
    exact readLine_together lawful
  · simp only [standard]
    exact .throw (lawful.discipline.fault nofun)

end Native

/-! ## One machine -/

variable {σ α : Type} {d : Discipline}

/-- The promise of an action for one machine: its context stays within the discipline,
however the action ends. -/
def Discipline.Keeps (d : Discipline) (returns : α → Prop) (action : Action σ α) : Prop :=
  Ensures (fun machine => machine.context.Obeys d) (fun failure => d.fault failure.fault) returns
    action

namespace Pairing

/-- A machine beside itself. -/
def alone (d : Discipline) : Pairing σ σ where
  discipline := d
  beneath := []
  hosts := Eq
  escapes _ := False

theorem alone_lawful [Host σ] (lawful : d.Lawful) : (alone d : Pairing σ σ).Lawful where
  discipline := lawful
  emit line same := congrArg (Host.emit line) same
  clear same := congrArg Host.clear same
  ask _ same := same ▸ ⟨rfl, rfl⟩
  within _ := id
  underflow := .inl rfl
  flush _ := rfl
  stackDump _ := rfl

/-- What two runs keep of the first context, one run keeps. -/
theorem Together.keeps {returns : α → Prop} {action : Action σ α}
    (together : (alone d).Together returns action action) : d.Keeps returns action := by
  intro machine obeys
  have same : machine.context = machine.context.atop [] := by
    rw [Context.atop, List.append_nil]
  have related : (alone d).Related machine machine := ⟨same, rfl, rfl, obeys⟩
  rcases together machine machine related with escaped | ⟨ended, _, _, after⟩
  · revert escaped
    rcases (action.run machine).1 with _ | _ <;> exact False.elim
  · exact ⟨after.obeys, ended⟩

end Pairing

/-- **A program keeps its context within the discipline**, however it ends. -/
theorem Machine.evaluate_keeps [Host σ] (lawful : d.Lawful) {settings : Settings σ}
    (standard : settings.natives = Native.standard) {program : Program} (allowed : d.Runs program) :
    d.Keeps (fun _ => True) (evaluate settings program) := by
  have alone : (Pairing.alone d : Pairing σ σ).Lawful := Pairing.alone_lawful lawful
  have agree : (Pairing.alone d).Agree settings settings := by
    refine ⟨fun name native => ?_, .inl rfl⟩
    rw [standard]
    exact Native.standard_together alone name native
  exact Pairing.Together.keeps (evaluate_together alone agree allowed)

end StackScript
