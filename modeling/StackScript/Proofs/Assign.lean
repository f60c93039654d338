/-
# StackScript.Proofs.Assign — a write in place is done whole or not at all

One step of a write looks at the slot under its index, as a step of a read does. It puts
the value there (`Slot.put`), or it goes down into the slot, which then goes back into
its holder (`Slot.putBack`). `Slot.assign_step` says so for arrays and dicts at once, and
is the only place that opens the definition.

The slots on the way down are written in place, and each goes back however the write
below it ended; a failure deep down passes every holder on its way out. `InPlace.Atomic`
says that the place is then as it was. It has one rule for every way to put work in place
together, and `Slot.assign_atomic` follows from them along the path. So a write in place
is known from its outcome (`Slot.run_assign`).
-/
import StackScript.Proofs.Entries
import StackScript.Proofs.Work
import StackScript.Slot.Write

namespace StackScript

set_option autoImplicit false

namespace InPlace

variable {α : Type} {value slot : Value}

/-- Puts the value in the place if there is one, and fails otherwise. -/
def place : Except Fault Value → InPlace Unit
  | .ok value => put value
  | .error fault => throw fault

/-! ## Running -/

theorem run_onStack (work : OnStack α) (value : Value) (stack : Stack) :
    (onStack work).run (value, stack) = ((work.run stack).1, value, (work.run stack).2) := rfl

theorem run_inside (slot outer : Value) (putBack : Value → Value) (work : InPlace α)
    (stack : Stack) :
    (inside slot putBack work).run (outer, stack) =
      ((work.run (slot, stack)).1, putBack (work.run (slot, stack)).2.1,
        (work.run (slot, stack)).2.2) := rfl

theorem run_outcome (work : InPlace Unit) (value : Value) (stack : Stack) :
    (work.outcome value).run stack =
      match work.run (value, stack) with
      | (.ok (), value, stack) => (.ok value, stack)
      | (.error fault, _, stack) => (.error fault, stack) := rfl

/-! ## Outcomes -/

theorem outcome_place (found : Except Fault Value) (value : Value) :
    (place found).outcome value = MonadExcept.ofExcept found := by
  cases found <;> rfl

theorem outcome_current (next : Value → InPlace Unit) (value : Value) :
    (current >>= next).outcome value = (next value).outcome value := rfl

theorem outcome_onStack (work : OnStack α) (next : α → InPlace Unit) (value : Value) :
    (onStack work >>= next).outcome value =
      work >>= fun result => (next result).outcome value := by
  apply Work.ext
  intro stack
  rw [run_outcome, Work.run_bind, Work.run_bind, run_onStack]
  rcases work.run stack with ⟨_ | _, _⟩ <;> rfl

theorem outcome_inside (slot outer : Value) (putBack : Value → Value) (work : InPlace Unit) :
    (inside slot putBack work).outcome outer =
      work.outcome slot >>= fun written => pure (putBack written) := by
  apply Work.ext
  intro stack
  rw [Work.run_bind, run_outcome, run_outcome, run_inside]
  rcases work.run (slot, stack) with ⟨_ | _, _, _⟩ <;> rfl

/-! ## Failures -/

/-- Work that fails on a value leaves the value as it was. -/
def Atomic (work : InPlace α) (value : Value) : Prop :=
  ∀ stack fault, (work.run (value, stack)).1 = .error fault → (work.run (value, stack)).2.1 = value

namespace Atomic

theorem throw (fault : Fault) : Atomic (MonadExcept.throw fault : InPlace α) value := by
  intro stack _ _
  rfl

theorem put (new : Value) : Atomic (InPlace.put new) value := by
  intro stack fault failed
  cases failed

theorem place (found : Except Fault Value) : Atomic (InPlace.place found) value := by
  cases found with
  | error fault => exact .throw fault
  | ok new => exact .put new

theorem current {next : Value → InPlace α} (rest : Atomic (next value) value) :
    Atomic (InPlace.current >>= next) value :=
  rest

theorem onStack {β : Type} {work : OnStack β} {next : β → InPlace α}
    (rest : ∀ result, Atomic (next result) value) :
    Atomic (InPlace.onStack work >>= next) value := by
  intro stack fault
  rw [Work.run_bind, run_onStack]
  rcases work.run stack with ⟨_ | result, middle⟩
  · exact fun _ => rfl
  · exact rest result middle fault

/-- What was taken out of the value goes back unchanged. -/
theorem inside {putBack : Value → Value} {work : InPlace α} (inner : Atomic work slot)
    (restored : putBack slot = value) : Atomic (InPlace.inside slot putBack work) value := by
  intro stack fault failed
  rw [run_inside] at failed ⊢
  rw [inner stack fault failed]
  exact restored

end Atomic

end InPlace

namespace Slot

/-! ## One slot -/

/-- The container with a value in the slot under an index. -/
def put (container : Value) (index : Index) (value : Value) : Except Fault Value :=
  match container, index with
  | .array items, .position n =>
    match store items n value with
    | .ok stored => .ok (.array stored)
    | .error fault => .error fault
  | .array _, .key name => .error (.keyOnArray name)
  | .dict entries, index => .ok (.dict (Entries.insert index.toKey value entries))
  | other, _ => .error (.notIndexable other.type)

/-- The container with another value in a slot that it has. -/
def putBack (container : Value) (index : Index) (slot : Value) : Value :=
  match container, index with
  | .array items, .position n => .array (items.set n slot)
  | .dict entries, index => .dict (Entries.replace index.toKey slot entries)
  | other, _ => other

theorem putBack_self {container slot : Value} {index : Index}
    (found : container.slot? index = .ok (some slot)) : putBack container index slot = container := by
  cases container with
  | array items =>
    cases index with
    | key name => cases found
    | position n =>
      obtain ⟨bound, held⟩ := List.getElem?_eq_some_iff.mp (Except.ok.inj found)
      rw [putBack, ← held, List.set_getElem_self]
  | dict entries => rw [putBack, Entries.replace_self (Except.ok.inj found)]
  | _ => cases found

/-! ## One step -/

/-- A write goes on into a slot where a walk goes on into it. -/
theorem assign_step (value : Value) (step : Step) (rest : List Step) :
    assign value (step :: rest) = (do
      let index ← InPlace.onStack step.resolve
      let holder ← InPlace.current
      match holder.slot? index with
      | .error fault => throw fault
      | .ok none => InPlace.place (put holder index value)
      | .ok (some slot) =>
        if rest.isEmpty then InPlace.place (put holder index value)
        else
          match holder.enters slot with
          | .error fault => throw fault
          | .ok true => InPlace.inside slot (putBack holder index) (assign value rest)
          | .ok false => InPlace.place (put holder index value)) := by
  rw [assign]
  refine bind_congr fun index => bind_congr fun holder => ?_
  cases holder with
  | array items =>
    cases index with
    | key name => rfl
    | position n =>
      have stored : InPlace.place (put (.array items) (.position n) value) =
          match store items n value with
          | .ok stored => InPlace.put (.array stored)
          | .error fault => throw fault := by
        rw [put]
        cases store items n value <;> rfl
      dsimp only [Value.slot?]
      rw [stored]
      cases items[n]? with
      | none => cases rest <;> rfl
      | some slot =>
        cases rest with
        | nil => rfl
        | cons next rest => cases slot <;> rfl
  | dict entries =>
    dsimp only [Value.slot?]
    cases Entries.find? index.toKey entries with
    | none => cases rest <;> rfl
    | some slot =>
      cases rest with
      | nil => rfl
      | cons next rest => cases slot <;> rfl
  | _ => rfl

open InPlace (Atomic)

/-- **A write that fails leaves the container as it was.** -/
theorem assign_atomic (value container : Value) (path : List Step) :
    Atomic (assign value path) container := by
  induction path generalizing container with
  | nil => exact .put value
  | cons step rest ih =>
    rw [assign_step]
    refine .onStack fun index => .current ?_
    split
    · exact .throw _
    · exact .place _
    · rename_i slot found
      split
      · exact .place _
      · split
        · exact .throw _
        · exact .inside (ih slot) (putBack_self found)
        · exact .place _

/-- A write in place, from what `write` gives. -/
theorem run_assign (value container : Value) (path : List Step) (stack : Stack) :
    (assign value path).run (container, stack) =
      match (write value container path).run stack with
      | (.ok written, rest) => (.ok (), written, rest)
      | (.error fault, rest) => (.error fault, container, rest) := by
  have atomic := assign_atomic value container path stack
  rw [write, InPlace.run_outcome]
  rcases ran : (assign value path).run (container, stack) with ⟨fault | _, after, rest⟩
  · rw [ran] at atomic
    obtain rfl : after = container := atomic fault rfl
    rfl
  · rfl

theorem write_step (value container : Value) (step : Step) (rest : List Step) :
    write value container (step :: rest) = (do
      let index ← step.resolve
      match container.slot? index with
      | .error fault => throw fault
      | .ok none => MonadExcept.ofExcept (put container index value)
      | .ok (some slot) =>
        if rest.isEmpty then MonadExcept.ofExcept (put container index value)
        else
          match container.enters slot with
          | .error fault => throw fault
          | .ok true =>
            let written ← write value slot rest
            pure (putBack container index written)
          | .ok false => MonadExcept.ofExcept (put container index value)) := by
  rw [write, assign_step, InPlace.outcome_onStack]
  refine bind_congr fun index => ?_
  rw [InPlace.outcome_current]
  cases container.slot? index with
  | error fault => rfl
  | ok found =>
    cases found with
    | none => exact InPlace.outcome_place ..
    | some slot =>
      dsimp only
      split
      · exact InPlace.outcome_place ..
      · cases container.enters slot with
        | error fault => rfl
        | ok enters =>
          cases enters with
          | true => exact InPlace.outcome_inside ..
          | false => exact InPlace.outcome_place ..

end Slot

end StackScript
