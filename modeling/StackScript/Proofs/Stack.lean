/-
# StackScript.Proofs.Stack — work on the stack takes only what it pops

`OnStack.Frugal` says once what reading, writing and constructing can do to the
stack: they pop from its top, they fail with ordinary faults, and what lies
beneath the values they pop makes no difference unless they run out of values.
It is put together from `pure`, `throw`, `pop` and `bind`, so each definition of
work on the stack has it by its own shape.
-/
import Mathlib.Data.List.Infix
import StackScript.Construct
import StackScript.Proofs.Assign

namespace StackScript

set_option autoImplicit false

/-- A fault of an instruction itself: not of the context, the depth of calls or
the end of the session. -/
def Fault.Ordinary (fault : Fault) : Prop :=
  match fault.kind with
  | .invalidApi | .unsafeContext | .callDepthExceeded | .terminated => False
  | _ => True

/-- A fault of the context: a variable or a function without a proper name. -/
def Fault.OfContext (fault : Fault) : Prop :=
  fault.kind = .invalidApi ∨ fault.kind = .unsafeContext

theorem Fault.Ordinary.not_ofContext {fault : Fault} (ordinary : fault.Ordinary) :
    ¬ fault.OfContext := by
  intro ofContext
  unfold Fault.Ordinary at ordinary
  rcases ofContext with kind | kind <;> rw [kind] at ordinary <;> exact ordinary

theorem Fault.Ordinary.kind_ne {fault : Fault} (ordinary : fault.Ordinary) :
    fault.kind ≠ .terminated ∧ fault.kind ≠ .callDepthExceeded := by
  unfold Fault.Ordinary at ordinary
  constructor
  · intro kind
    rw [kind] at ordinary
    exact ordinary
  · intro kind
    rw [kind] at ordinary
    exact ordinary

/-- The stack ran out of values. -/
def Underflows {α : Type} (result : Except Fault α) : Prop :=
  ∃ fault, result = .error fault ∧ fault.kind = .stackUnderflow

/-- Work that only pops, and sees no more of the stack than that. -/
structure OnStack.Frugal {α : Type} (work : OnStack α) : Prop where
  pops : ∀ stack, (work.run stack).2 <:+ stack
  faults : ∀ stack, Work.Ends Fault.Ordinary (fun _ => True) (work.run stack).1
  beneath : ∀ stack below, Underflows (work.run stack).1 ∨
    work.run (stack ++ below) = ((work.run stack).1, (work.run stack).2 ++ below)

namespace OnStack.Frugal

variable {α β : Type}

theorem pure (result : α) : Frugal (Pure.pure result : OnStack α) where
  pops stack := List.suffix_refl stack
  faults _ := trivial
  beneath _ _ := .inr rfl

theorem throw {fault : Fault} (ordinary : fault.Ordinary) :
    Frugal (MonadExcept.throw fault : OnStack α) where
  pops stack := List.suffix_refl stack
  faults _ := ordinary
  beneath _ _ := .inr rfl

theorem ofExcept {found : Except Fault α}
    (ordinary : ∀ fault, found = .error fault → fault.Ordinary) :
    Frugal (MonadExcept.ofExcept found : OnStack α) := by
  cases found with
  | error fault => exact .throw (ordinary fault rfl)
  | ok result => exact .pure result

theorem pop : Frugal Stack.pop where
  pops stack := by
    cases stack with
    | nil => exact List.suffix_refl []
    | cons value rest => exact List.suffix_cons value rest
  faults stack := by
    cases stack with
    | nil => trivial
    | cons value rest => trivial
  beneath stack below := by
    cases stack with
    | nil => exact .inl ⟨_, rfl, rfl⟩
    | cons value rest => exact .inr rfl

theorem bind {work : OnStack α} {next : α → OnStack β} (first : Frugal work)
    (rest : ∀ result, Frugal (next result)) : Frugal (work >>= next) where
  pops stack := by
    have popped := first.pops stack
    rw [Work.run_bind]
    rcases ran : work.run stack with ⟨fault | result, middle⟩ <;> rw [ran] at popped
    · exact popped
    · exact ((rest result).pops middle).trans popped
  faults stack := by
    have ended := first.faults stack
    rw [Work.run_bind]
    rcases ran : work.run stack with ⟨fault | result, middle⟩ <;> rw [ran] at ended
    · exact ended
    · exact (rest result).faults middle
  beneath stack below := by
    have same := first.beneath stack below
    rw [Work.run_bind, Work.run_bind]
    rcases ran : work.run stack with ⟨fault | result, middle⟩ <;> rw [ran] at same
    · rcases same with ⟨_, failed, under⟩ | same
      · exact .inl ⟨_, rfl, by cases failed; exact under⟩
      · exact .inr (by rw [same])
    · rcases same with ⟨_, failed, _⟩ | same
      · cases failed
      · simpa [same] using (rest result).beneath middle below

theorem mapM {each : α → OnStack β} {items : List α} (frugal : ∀ item ∈ items, Frugal (each item)) :
    Frugal (items.mapM each) := by
  induction items with
  | nil => exact .pure []
  | cons item items ih =>
    rw [List.mapM_cons]
    refine .bind (frugal item List.mem_cons_self) fun result => ?_
    refine .bind (ih fun item member => frugal item (List.mem_cons_of_mem _ member)) fun results => ?_
    exact .pure _

end OnStack.Frugal

open OnStack (Frugal)

/-! ## Steps -/

theorem Index.ofValue_ordinary {value : Value} {fault : Fault}
    (failed : Index.ofValue value = .error fault) : fault.Ordinary := by
  unfold Index.ofValue at failed
  split at failed
  · cases failed
  · split at failed
    · split at failed
      · cases failed; trivial
      · split at failed
        · cases failed
        · cases failed; trivial
    · cases failed; trivial
  · cases failed; trivial

theorem Step.resolve_frugal (step : Step) : Frugal step.resolve := by
  cases step with
  | index known => exact .pure known
  | top =>
    refine .bind .pop fun value => ?_
    split
    · exact .pure _
    · rename_i failed
      exact .throw (Index.ofValue_ordinary failed)

theorem Segment.resolve_ordinary {bindings : List (String × Value)} {segment : Segment}
    {fault : Fault} (failed : segment.resolve bindings = .error fault) : fault.Ordinary := by
  cases segment with
  | position digits =>
    simp only [Segment.resolve] at failed
    split at failed
    · cases failed
    · cases failed; trivial
  | reference name =>
    simp only [Segment.resolve] at failed
    split at failed
    · rename_i value _
      cases read : Index.ofValue value with
      | ok index => rw [read] at failed; cases failed
      | error fault' => rw [read] at failed; cases failed; exact Index.ofValue_ordinary read
    · cases failed; trivial
  | key name => cases failed
  | top => cases failed

theorem Path.steps_ordinary {bindings : List (String × Value)} {path : Path} {fault : Fault}
    (failed : path.steps bindings = .error fault) : fault.Ordinary := by
  unfold Path.steps at failed
  generalize path.segments = segments at failed
  induction segments with
  | nil => cases failed
  | cons segment rest ih =>
    rw [List.mapM_cons] at failed
    cases first : segment.resolve bindings with
    | error fault' => rw [first] at failed; cases failed; exact Segment.resolve_ordinary first
    | ok step =>
      cases later : rest.mapM (Segment.resolve bindings) with
      | error fault' => rw [first, later] at failed; cases failed; exact ih later
      | ok steps => rw [first, later] at failed; cases failed

/-! ## Slots -/

theorem Value.slot?_ordinary {container : Value} {index : Index} {fault : Fault}
    (failed : container.slot? index = .error fault) : fault.Ordinary := by
  unfold Value.slot? at failed
  split at failed <;> cases failed
  · trivial
  · trivial

theorem Value.enters_ordinary {container slot : Value} {fault : Fault}
    (failed : container.enters slot = .error fault) : fault.Ordinary := by
  unfold Value.enters at failed
  split at failed <;> cases failed
  trivial

theorem Slot.walk_frugal (current : Value) (path : List Step) : Frugal (Slot.walk current path) := by
  induction path generalizing current with
  | nil => exact .pure _
  | cons step rest ih =>
    refine .bind step.resolve_frugal fun index => ?_
    split
    · rename_i failed
      exact .throw (Value.slot?_ordinary failed)
    · exact .pure _
    · split
      · exact .pure _
      · split
        · rename_i failed
          exact .throw (Value.enters_ordinary failed)
        · exact ih _
        · exact .pure _

theorem Slot.read_frugal (container : Value) (path : List Step) :
    Frugal (Slot.read container path) := by
  unfold Slot.read
  split
  · exact Slot.walk_frugal container path
  · exact .throw trivial

theorem Slot.store_ordinary {items : List Value} {position : Nat} {value : Value} {fault : Fault}
    (failed : Slot.store items position value = .error fault) : fault.Ordinary := by
  unfold Slot.store at failed
  split at failed
  · cases failed
  · split at failed <;> cases failed
    trivial

theorem Slot.put_ordinary {container value : Value} {index : Index} {fault : Fault}
    (failed : Slot.put container index value = .error fault) : fault.Ordinary := by
  unfold Slot.put at failed
  split at failed
  · split at failed <;> cases failed
    rename_i failed
    exact Slot.store_ordinary failed
  · cases failed
    trivial
  · cases failed
  · cases failed
    trivial

theorem Slot.write_frugal (value container : Value) (path : List Step) :
    Frugal (Slot.write value container path) := by
  induction path generalizing container with
  | nil => exact .pure value
  | cons step rest ih =>
    rw [Slot.write_step]
    refine .bind step.resolve_frugal fun index => ?_
    have stops : Frugal (MonadExcept.ofExcept (Slot.put container index value)) :=
      .ofExcept fun _ => Slot.put_ordinary
    split
    · rename_i failed
      exact .throw (Value.slot?_ordinary failed)
    · exact stops
    · split
      · exact stops
      · split
        · rename_i failed
          exact .throw (Value.enters_ordinary failed)
        · exact .bind (ih _) fun _ => .pure _
        · exact stops

end StackScript
