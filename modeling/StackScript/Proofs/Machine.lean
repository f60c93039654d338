/-
# StackScript.Proofs.Machine — actions, as they run

What each action does to a machine, as an equation, and what a machine under a
discipline holds. Later modules use these equations and do not open the actions.
-/
import StackScript.Machine.Evaluate
import StackScript.Machine.Native
import StackScript.Proofs.Discipline

namespace StackScript

set_option autoImplicit false

/-- Everything a context holds is within the discipline. -/
structure Context.Obeys (d : Discipline) (context : Context) : Prop where
  stack : d.Stacks context.stack
  names : ∀ entry ∈ context.bindings, d.name entry.1
  bindings : ∀ entry ∈ context.bindings, d.Allows entry.2
  functions : d.functions context.functions

namespace Context.Obeys

variable {d : Discipline} {context : Context}

theorem push (obeys : context.Obeys d) {value : Value} (allowed : d.Allows value) :
    Context.Obeys d { context with stack := value :: context.stack } :=
  { obeys with stack := List.forall_mem_cons.mpr ⟨allowed, obeys.stack⟩ }

theorem bind (obeys : context.Obeys d) {name : String} {value : Value} (named : d.name name)
    (allowed : d.Allows value) :
    Context.Obeys d { context with bindings := Entries.insert name value context.bindings } := by
  refine { obeys with names := fun entry member => ?_, bindings := fun entry member => ?_ }
  · rcases Entries.mem_insert member with rfl | kept
    · exact named
    · exact obeys.names entry kept
  · rcases Entries.mem_insert member with rfl | kept
    · exact allowed
    · exact obeys.bindings entry kept

theorem rebind (obeys : context.Obeys d) (name : String) {value : Value}
    (allowed : d.Allows value) :
    Context.Obeys d { context with bindings := Entries.replace name value context.bindings } := by
  refine { obeys with names := fun entry member => ?_, bindings := fun entry member => ?_ }
  · have bound : entry.1 ∈ context.bindings.map Prod.fst := by
      rw [← Entries.keys_replace name value]
      exact List.mem_map_of_mem member
    obtain ⟨old, kept, same⟩ := List.mem_map.mp bound
    exact same ▸ obeys.names old kept
  · rcases Entries.mem_replace member with rfl | kept
    · exact allowed
    · exact obeys.bindings entry kept

theorem bindMain (lawful : d.Lawful) (obeys : context.Obeys d) {program : Program}
    (runs : d.Runs program) : (context.bindMain program).Obeys d := by
  unfold Context.bindMain
  split
  · exact obeys
  · rename_i absent
    exact { obeys with functions := lawful.main runs obeys.functions absent }

end Context.Obeys

/-- A function inside an allowed value may be called. -/
theorem Discipline.calls_of_allows {d : Discipline} (lawful : d.Lawful) {body : Body}
    (allowed : d.Allows (.function body)) : d.Calls body := by
  have inner := Discipline.allows_function.mp allowed
  cases body with
  | native name => exact lawful.native inner.self
  | program program => exact (Piece.all_program.mp inner).2

namespace Machine

variable {σ : Type} (machine : Machine σ)

/-- The machine with one more value on its stack. -/
def pushed (value : Value) : Machine σ :=
  { machine with context := { machine.context with stack := value :: machine.context.stack } }

/-- The machine with the context and the host that a native left. -/
def changed (state : Context × σ) : Machine σ :=
  { machine with context := state.1, host := state.2 }

/-- The machine inside one more program. -/
def entered : Machine σ :=
  { machine with depth := machine.depth + 1 }

/-- The machine outside the innermost program. -/
def left : Machine σ :=
  { machine with depth := machine.depth - 1 }

/-- An operator gives a number or text, or fails with an ordinary fault. -/
theorem combine_ends (d : Discipline) (op : Control) (a b : Value) :
    Work.Ends Fault.Ordinary d.Allows (combine op a b) := by
  unfold combine
  split
  · trivial
  · split
    · exact Discipline.allows_scalar rfl (by intro same; cases same)
    · exact Discipline.allows_scalar rfl (by intro same; cases same)
    · exact Discipline.allows_scalar rfl (by intro same; cases same)
    · trivial
    · trivial

end Machine

/-! ## Actions -/

namespace Action

variable {σ α : Type}

theorem run_getContext (machine : Machine σ) :
    (getContext : Action σ Context).run machine = (.ok machine.context, machine) := rfl

theorem run_push (value : Value) (machine : Machine σ) :
    (push value).run machine = (.ok (), machine.pushed value) := rfl

theorem run_onStack (work : OnStack α) (machine : Machine σ) :
    (onStack work).run machine =
      (((work.run machine.context.stack).1).mapError fun fault => { fault },
        { machine with context :=
          { machine.context with stack := (work.run machine.context.stack).2 } }) := by
  change onStack work machine = _
  unfold onStack
  rcases work.run machine.context.stack with ⟨_ | _, _⟩ <;> rfl

theorem run_runNative (native : Native σ) (machine : Machine σ) :
    (runNative native).run machine =
      ((native.run (machine.context, machine.host)).1.mapError id,
        machine.changed (native.run (machine.context, machine.host)).2) := by
  change runNative native machine = _
  unfold runNative
  rcases native.run (machine.context, machine.host) with ⟨_ | _, _⟩ <;> rfl

theorem run_within (instruction : Instruction) (action : Action σ α) (machine : Machine σ) :
    (within instruction action).run machine =
      ((action.run machine).1.mapError (·.within instruction.text), (action.run machine).2) := rfl

/-- A failure keeps its fault on its way out. -/
@[simp] theorem fault_within (failure : Failure) (text : String) :
    (failure.within text).fault = failure.fault := by
  unfold Failure.within
  split <;> rfl

theorem run_deeper (action : Action σ α) (machine : Machine σ) :
    (deeper action).run machine =
      ((action.run machine.entered).1.mapError id, (action.run machine.entered).2.left) := by
  change deeper action machine = _
  unfold deeper Machine.entered
  rcases action.run { machine with depth := machine.depth + 1 } with ⟨_ | _, _⟩ <;> rfl

end Action

/-! ## Pops -/

namespace Machine

variable {σ : Type}

/-- Puts another value into a variable that is bound. -/
def rebind (name : String) (value : Value) : Action σ Unit :=
  Action.modifyContext fun context =>
    { context with bindings := Entries.replace name value context.bindings }

/-- A variable that is written in place gets the written value, or keeps its own. -/
theorem run_onVariable {machine : Machine σ} {name : String} {held : Value}
    (bound : Entries.find? name machine.context.bindings = some held) (value : Value)
    (path : List Step) :
    (onVariable name held (Slot.assign value path)).run machine =
      (do
        let written ← Action.onStack (Slot.write value held path)
        rebind name written : Action σ Unit).run machine := by
  change onVariable name held (Slot.assign value path) machine = _
  rw [onVariable, Slot.run_assign, Work.run_bind, Action.run_onStack]
  rcases (Slot.write value held path).run machine.context.stack with ⟨fault | written, rest⟩
  · simp only [Entries.replace_self bound]
    rfl
  · rfl

/-- A pop into a slot writes the whole variable, and puts it back when the write has
succeeded. -/
theorem executePop_eq (path : Path) :
    (executePop path : Action σ Unit) = (do
      let value ← Action.onStack Stack.pop
      if path.isBare then executePop.bind path.name value
      else
        let context ← Action.getContext
        match Entries.find? path.name context.bindings with
        | none => Action.fail (.unboundPop path.name)
        | some target =>
          match path.steps context.bindings with
          | .error fault => Action.fail fault
          | .ok steps => do
            let written ← Action.onStack (Slot.write value target steps)
            rebind path.name written) := by
  unfold executePop
  refine bind_congr fun value => ?_
  split
  · rfl
  · apply Work.ext
    intro machine
    rw [Work.run_bind_ok (Action.run_getContext machine),
      Work.run_bind_ok (Action.run_getContext machine)]
    cases bound : Entries.find? path.name machine.context.bindings with
    | none => rfl
    | some target =>
      cases path.steps machine.context.bindings with
      | error fault => rfl
      | ok steps => exact run_onVariable bound value steps

end Machine

end StackScript
