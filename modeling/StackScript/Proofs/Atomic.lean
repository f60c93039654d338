/-
# StackScript.Proofs.Atomic — a pop that fails changes no variable

A pop takes its value off the stack, finds the variable and writes it in place. The
write resolves the steps of the path one after the other, and a step that takes its
index from the stack pops it for good, even if the write fails later. `Slot.reach`
counts the steps that are resolved, and `Slot.write_rest` says that their indexes are
all that the write pops.

The variables come out of a failure as they went into it, because a write in place is
done whole or not at all (`Slot.assign_atomic`).
-/
import StackScript.Proofs.Slot

namespace StackScript

set_option autoImplicit false

namespace Slot

variable {value container : Value} {step : Step} {path : List Step} {stack middle : Stack}
  {index : Index}

/-! ## The stack -/

/-- How many steps of a path a walk resolves. It goes on behind a step only in a slot that
it enters. -/
def reach (container : Value) : List Step → Stack → Nat
  | [], _ => 0
  | step :: rest, stack =>
    match step.resolve.run stack with
    | (.error _, _) => 1
    | (.ok index, middle) =>
      match container.slot? index with
      | .ok (some slot) =>
        match container.enters slot with
        | .ok true => reach slot rest middle + 1
        | _ => 1
      | _ => 1

/-- A step pops its index if it is to take it from the stack, and nothing otherwise. -/
theorem resolve_rest (step : Step) (stack : Stack) :
    (step.resolve.run stack).2 = stack.drop ([step].count .top) := by
  cases step with
  | index known => rfl
  | top =>
    cases stack with
    | nil => rfl
    | cons top below =>
      have popped : Stack.pop.run (top :: below) = (.ok top, below) := rfl
      rw [Step.resolve, Work.run_bind_ok popped]
      cases Index.ofValue top <;> rfl

theorem putBack_rest {α β : Type} (work : OnStack α) (finish : α → β) (stack : Stack) :
    ((work >>= fun result => pure (finish result)).run stack).2 = (work.run stack).2 := by
  rw [Work.run_bind]
  rcases work.run stack with ⟨_ | _, _⟩ <;> rfl

/-- When its first step is resolved, a write pops what it pops inside the slot it enters. -/
theorem write_rest_step (resolved : step.resolve.run stack = (.ok index, middle)) :
    ((write value container (step :: path)).run stack).2 =
      match container.slot? index with
      | .ok (some slot) =>
        match container.enters slot with
        | .ok true => ((write value slot path).run middle).2
        | _ => middle
      | _ => middle := by
  rw [write_cons resolved]
  rcases container.slot? index with fault | _ | slot
  · rfl
  · dsimp only
    rw [Work.run_ofExcept]
  · dsimp only
    cases path with
    | nil =>
      rw [if_pos List.isEmpty_nil, Work.run_ofExcept]
      rcases container.enters slot with fault | _ | _ <;> rfl
    | cons next path =>
      rcases container.enters slot with fault | _ | _
      · rfl
      · exact congrArg Prod.snd (Work.run_ofExcept ..)
      · exact putBack_rest ..

/-- **A write pops the indexes of the steps that it reaches, and nothing else.** -/
theorem write_rest (value container : Value) (path : List Step) (stack : Stack) :
    ((write value container path).run stack).2 =
      stack.drop ((path.take (reach container path stack)).count .top) := by
  induction path generalizing container stack with
  | nil => rfl
  | cons step path ih =>
    have popped := resolve_rest step stack
    have first (taken : List Step) (holder : Stack) (left : holder = stack.drop ([step].count .top)) :
        holder.drop (taken.count .top) = stack.drop ((step :: taken).count .top) := by
      rw [left, List.drop_drop, ← List.count_append, List.singleton_append]
    rcases resolved : step.resolve.run stack with ⟨fault | index, middle⟩ <;> rw [resolved] at popped
    · rw [write_unresolved resolved, reach, resolved]
      exact first [] middle popped
    · rw [write_rest_step resolved, reach, resolved]
      dsimp only
      split
      · split
        · rename_i slot _ _ _
          rw [ih slot middle, List.take_succ_cons]
          exact first _ middle popped
        · exact first [] middle popped
      · exact first [] middle popped

end Slot

/-! ## Pops -/

/-- The steps that a pop reaches with the given stack beneath its value. There are none
if the variable is not bound or one of the segments is no index. -/
def Context.reached (context : Context) (target : Path) (below : Stack) : List Step :=
  match Entries.find? target.name context.bindings, target.steps context.bindings with
  | some container, .ok steps => steps.take (Slot.reach container steps below)
  | _, _ => []

namespace Machine

variable {σ : Type}

/-- What a pop leaves of the stack: it takes off the value, and then an index for every
step that it reaches and that takes its index from the stack. -/
def popRest (machine : Machine σ) (target : Path) : Stack :=
  let below := machine.context.stack.drop 1
  below.drop ((machine.context.reached target below).count .top)

/-- The machine with another stack and other variables. -/
def rebound (machine : Machine σ) (stack : Stack) (bindings : List (String × Value)) : Machine σ :=
  { machine with context := { machine.context with stack, bindings } }

/-- How a pop can end: it fails and only the stack has changed, or it has bound the variable,
or it has put a written value into the variable. -/
inductive Popped (machine : Machine σ) (target : Path) : Except Failure Unit × Machine σ → Prop
  | failed (failure : Failure) :
      Popped machine target
        (.error failure, machine.rebound (machine.popRest target) machine.context.bindings)
  | bound (value : Value) :
      Popped machine target (.ok (), machine.rebound (machine.popRest target)
        (Entries.insert target.name value machine.context.bindings))
  | written {held : Value} (found : Entries.find? target.name machine.context.bindings = some held)
      (written : Value) :
      Popped machine target (.ok (), machine.rebound (machine.popRest target)
        (Entries.replace target.name written machine.context.bindings))

theorem popRest_bare {machine : Machine σ} {target : Path} (bare : target.isBare = true) :
    machine.popRest target = machine.context.stack.drop 1 := by
  have steps : target.steps machine.context.bindings = .ok [] := by
    rw [Path.steps, List.isEmpty_iff.mp bare]
    rfl
  rw [popRest, Context.reached, steps]
  cases Entries.find? target.name machine.context.bindings with
  | none => rfl
  | some held => simp

theorem executePop_popped (machine : Machine σ) (target : Path) :
    Popped machine target ((executePop target).run machine) := by
  rw [executePop_eq]
  cases stacked : machine.context.stack with
  | nil =>
    have failed : (Action.onStack Stack.pop).run machine =
        (.error { fault := .stackUnderflow }, machine.rebound [] machine.context.bindings) := by
      rw [Action.run_onStack, stacked]
      rfl
    have rest : machine.popRest target = [] := by simp [popRest, stacked]
    rw [Work.run_bind_error failed, ← rest]
    exact .failed _
  | cons value below =>
    have popped : (Action.onStack Stack.pop).run machine =
        (.ok value, machine.rebound below machine.context.bindings) := by
      rw [Action.run_onStack, stacked]
      rfl
    rw [Work.run_bind_ok popped]
    split
    · rename_i bare
      have rest : machine.popRest target = below := by rw [popRest_bare bare, stacked]; rfl
      subst rest
      exact .bound value
    · rw [Work.run_bind_ok (Action.run_getContext _)]
      have reached : machine.popRest target =
          below.drop ((machine.context.reached target below).count .top) := by
        rw [popRest, stacked]
        rfl
      dsimp only [rebound]
      cases found : Entries.find? target.name machine.context.bindings with
      | none =>
        have rest : machine.popRest target = below := by simp [reached, Context.reached, found]
        subst rest
        exact .failed _
      | some held =>
        cases resolved : target.steps machine.context.bindings with
        | error fault =>
          have rest : machine.popRest target = below := by
            simp [reached, Context.reached, found, resolved]
          subst rest
          exact .failed _
        | ok steps =>
          have rest : machine.popRest target = ((Slot.write value held steps).run below).2 := by
            simp [reached, Context.reached, found, resolved, Slot.write_rest]
          dsimp only
          rw [Work.run_bind, Action.run_onStack]
          dsimp only
          rw [← rest]
          cases ((Slot.write value held steps).run below).1 with
          | error fault => exact .failed _
          | ok written => exact .written found written

end Machine

/-- **A write that fails changes nothing, and so does a pop but for the stack.** A write in place
that fails leaves its container as it was. A pop that fails leaves all variables and functions as
they were; off the stack are the value and the indexes of the steps that were reached. A pop that
succeeds changes no variable but its own, and no function. -/
theorem Machine.executePop_atomic :
    (∀ (value container : Value) (path : List Step) (stack rest : Stack) (fault : Fault)
        (after : Value),
      (Slot.assign value path).run (container, stack) = (.error fault, after, rest) →
        after = container) ∧
      ∀ (σ : Type) (machine : Machine σ) (target : Path),
        match (executePop target).run machine with
        | (.error _, after) =>
          after = { machine with context :=
            { machine.context with stack := machine.popRest target } }
        | (.ok _, after) =>
          after.context.stack = machine.popRest target ∧
            after.context.functions = machine.context.functions ∧
            ∀ name, name ≠ target.name →
              Entries.find? name after.context.bindings =
                Entries.find? name machine.context.bindings := by
  constructor
  · intro value container path stack rest fault after failed
    have atomic := Slot.assign_atomic value container path stack fault
    rw [failed] at atomic
    exact atomic rfl
  · intro σ machine target
    have popped := executePop_popped machine target
    generalize (executePop target).run machine = ended at popped ⊢
    cases popped with
    | failed failure => rfl
    | bound value =>
      refine ⟨rfl, rfl, fun name other => ?_⟩
      exact (Entries.find?_insert ..).trans (if_neg other.symm)
    | written found written =>
      refine ⟨rfl, rfl, fun name other => ?_⟩
      exact (Entries.find?_replace found ..).trans (if_neg other.symm)

/-- A pop goes down two slots, takes a position and a key from the stack, and then finds that
the key names no slot of an array. The value and both indexes are gone; the variable, written
in place two levels down, is as it was. -/
theorem Machine.executePop_atomic_late :
    let inner : Value := .array [.array [.null]]
    let container : Value := .dict [("k", inner)]
    let machine : Machine Unit :=
      { host := (), context :=
          { stack := [.boolean true, .text "k", .text "x", .null], bindings := [("v", container)] } }
    let steps : List Step := [.top, .index (.position 0), .top, .index (.key "y")]
    let target : Path := { name := "v", segments := [.top, .position "0", .top, .key "y"] }
    let wrote := (Slot.assign (.boolean true) steps).run (container, [.text "k", .text "x", .null])
    let popped := (executePop target).run machine
    wrote.1 = .error (.keyOnArray "x") ∧ wrote.2.1 = container ∧
      popped.1 = .error { fault := .keyOnArray "x" } ∧
      popped.2 = { machine with context := { machine.context with stack := [.null] } } := by
  intro inner container machine steps target wrote popped
  obtain ⟨writes, pops⟩ := executePop_atomic
  refine ⟨rfl, ?_, rfl, pops Unit machine target⟩
  exact writes (.boolean true) container steps [.text "k", .text "x", .null] [.null]
    (.keyOnArray "x") wrote.2.1 rfl

end StackScript
