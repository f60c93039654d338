/-
# StackScript.Proofs.ReadBack — a write can be read back

`Slot.put` is what a write does to the container it stops in. In every container on the
way there it puts back the slot that it went down into (`Slot.putBack`). A write that
succeeds has gone down at its first step or has stopped there (`Slot.write_cases`), and
`Slot.stop` follows it to its end without writing anything.

Behind the step where the write stopped, a read of the same path goes on as it would
from any slot that holds the value: a value that may be entered is entered, and the
steps left over lead on inside it (`Slot.read_back`).
-/
import StackScript.Proofs.Slot

namespace StackScript

set_option autoImplicit false

/-! ## Types decide the walk -/

namespace Value

theorem isContainer_iff {value : Value} :
    value.isContainer = true ↔ value.type = .array ∨ value.type = .dict := by
  cases value <;> simp [isContainer, type]

theorem isContainer_congr {first second : Value} (same : first.type = second.type) :
    first.isContainer = second.isContainer := by
  rw [Bool.eq_iff_iff, isContainer_iff, isContainer_iff, same]

theorem enters_eq (holder slot : Value) :
    holder.enters slot =
      match holder.type with
      | .array => if slot.type = .dict then .error .dictInArray else .ok (slot.type = .array)
      | .dict => .ok slot.isContainer
      | _ => .ok false := by
  cases holder with
  | array _ => cases slot <;> rfl
  | dict _ => rfl
  | _ => rfl

theorem enters_simple {slot : Value} (simple : slot.isContainer = false) (holder : Value) :
    holder.enters slot = .ok false := by
  cases holder with
  | array _ =>
    cases slot with
    | array _ | dict _ => cases simple
    | _ => rfl
  | dict _ => exact congrArg _ simple
  | _ => rfl

theorem simple_of_enters {holder slot : Value} {index : Index}
    (found : holder.slot? index = .ok (some slot)) (enters : holder.enters slot = .ok false) :
    slot.isContainer = false := by
  cases holder with
  | array _ =>
    cases slot with
    | array _ | dict _ => cases enters
    | _ => rfl
  | dict _ => exact Except.ok.inj enters
  | _ => cases found

theorem enters_congr {holder holder' slot slot' : Value} (same : holder.type = holder'.type)
    (alike : slot.type = slot'.type) : holder.enters slot = holder'.enters slot' := by
  rw [enters_eq, enters_eq, same, alike, isContainer_congr alike]

end Value

namespace Slot

variable {container slot value written : Value} {index : Index} {stack after : Stack}

/-! ## One slot -/

/-- A container of the same type as another, which holds a value under an index. -/
structure Holding (container : Value) (index : Index) (value holding : Value) : Prop where
  type : holding.type = container.type
  slot : holding.slot? index = .ok (some value)

theorem getElem?_store {items stored : List Value} {n : Nat}
    (done : store items n value = .ok stored) : stored[n]? = some value := by
  unfold store at done
  split at done
  · rename_i inside
    cases done
    exact List.getElem?_set_self inside
  · rename_i outside
    split at done
    · cases done
      have width : (items ++ List.replicate (n - items.length) Value.null).length = n := by
        simp
        omega
      rw [List.getElem?_append_right width.le, width, Nat.sub_self]
      rfl
    · cases done

theorem put_holds (stored : put container index value = .ok written) :
    Holding container index value written := by
  unfold put at stored
  split at stored
  · split at stored
    · rename_i done
      cases stored
      exact ⟨rfl, by rw [Value.slot?, getElem?_store done]⟩
    · cases stored
  · cases stored
  · cases stored
    exact ⟨rfl, by rw [Value.slot?, Entries.find?_insert_self]⟩
  · cases stored

theorem putBack_holds (found : container.slot? index = .ok (some slot)) (value : Value) :
    Holding container index value (putBack container index value) := by
  cases container with
  | array items =>
    cases index with
    | key name => cases found
    | position n =>
      obtain ⟨bound, _⟩ := List.getElem?_eq_some_iff.mp (Except.ok.inj found)
      exact ⟨rfl, by rw [putBack, Value.slot?, List.getElem?_set_self bound]⟩
  | dict entries =>
    have held : Entries.find? index.toKey entries = some slot := Except.ok.inj found
    exact ⟨rfl, by rw [putBack, Value.slot?, Entries.find?_replace held, if_pos rfl]⟩
  | _ => cases found

/-! ## One step -/

/-- What a write that succeeds did at its first step. It stopped there, or it wrote inside the
slot and put the slot back. -/
inductive Wrote (value container : Value) (index : Index) (rest : List Step) (middle : Stack)
    (written : Value) : Stack → Prop
  | stopped (stops : rest = [] ∨
        ∀ slot, container.slot? index = .ok (some slot) → slot.isContainer = false)
      (stored : put container index value = .ok written) :
      Wrote value container index rest middle written middle
  | inside {slot inner : Value} {after : Stack} (more : rest ≠ [])
      (found : container.slot? index = .ok (some slot)) (enters : container.enters slot = .ok true)
      (wrote : (write value slot rest).run middle = (.ok inner, after))
      (restored : putBack container index inner = written) :
      Wrote value container index rest middle written after

section Steps

variable {step : Step} {rest : List Step} {middle : Stack}

/-- **A write that succeeds stopped at its first step or wrote inside the slot.** -/
theorem write_cases (resolved : step.resolve.run stack = (.ok index, middle))
    (ran : (write value container (step :: rest)).run stack = (.ok written, after)) :
    Wrote value container index rest middle written after := by
  have stops (stops : rest = [] ∨
        ∀ slot, container.slot? index = .ok (some slot) → slot.isContainer = false)
      (ran : (MonadExcept.ofExcept (put container index value) : OnStack Value).run middle =
        (.ok written, after)) : Wrote value container index rest middle written after := by
    rw [Work.run_ofExcept] at ran
    obtain ⟨stored, rfl⟩ := Prod.mk.inj ran
    exact .stopped stops stored
  rw [write_cons resolved] at ran
  split at ran
  · cases ran
  · rename_i absent
    refine stops (.inr fun slot found => ?_) ran
    rw [absent] at found
    cases found
  · rename_i slot found
    split at ran
    · rename_i last
      exact stops (.inl (List.isEmpty_iff.mp last)) ran
    · rename_i more
      split at ran
      · cases ran
      · rename_i enters
        obtain ⟨inner, _, wrote, ended⟩ := Work.of_run_bind_ok ran
        cases ended
        exact .inside (mt List.isEmpty_iff.mpr more) found enters wrote rfl
      · rename_i enters
        refine stops (.inr fun other held => ?_) ran
        rw [found] at held
        cases held
        exact Value.simple_of_enters found enters

/-- A write along a path keeps the type of the container. -/
theorem Wrote.type (wrote : Wrote value container index rest middle written after) :
    written.type = container.type := by
  cases wrote with
  | stopped _ stored => exact (put_holds stored).type
  | inside _ found _ _ restored => exact restored ▸ (putBack_holds found _).type

/-- How a walk goes on when it has found a slot of a holder. -/
def resume (holder slot : Value) (rest : List Step) : OnStack (Option Value) :=
  if rest.isEmpty then pure (some slot)
  else
    match holder.enters slot with
    | .error fault => throw fault
    | .ok true => walk slot rest
    | .ok false => pure (some slot)

theorem resume_simple (simple : slot.isContainer = false) (holder : Value) (rest : List Step) :
    resume holder slot rest = pure (some slot) := by
  rw [resume, Value.enters_simple simple]
  exact ite_self _

theorem resume_inside {holder : Value} (more : rest ≠ []) (enters : holder.enters slot = .ok true) :
    resume holder slot rest = walk slot rest := by
  rw [resume, if_neg (by simpa using more), enters]

theorem resume_refused {holder : Value} {fault : Fault} (more : rest ≠ [])
    (refused : holder.enters slot = .error fault) : resume holder slot rest = throw fault := by
  rw [resume, if_neg (by simpa using more), refused]

/-- The walk finds the slot that a container holds, and goes on from there. -/
theorem walk_holding (resolved : step.resolve.run stack = (.ok index, middle))
    (holding : Holding container index slot written) :
    (walk written (step :: rest)).run stack = (resume container slot rest).run middle := by
  have enters : written.enters slot = container.enters slot :=
    Value.enters_congr holding.type rfl
  have resumed : resume written slot rest = resume container slot rest := by
    unfold resume
    rw [enters]
  rw [← resumed, walk_cons resolved]
  simp only [holding.slot]
  rfl

end Steps

/-! ## The whole path -/

/-- Where a write stops: a step of its path, counted from zero, and the container whose slot
that step names. -/
structure Stop where
  step : Nat
  holder : Value

/-- Where a write into a container stops: at the last step, or at the first one whose slot is
absent or holds neither an array nor a dict. -/
def stop (container : Value) : List Index → Stop
  | [] => ⟨0, container⟩
  | [_] => ⟨0, container⟩
  | index :: next :: rest =>
    match container.slot? index with
    | .ok (some slot) =>
      if slot.isContainer then
        let inner := stop slot (next :: rest)
        ⟨inner.step + 1, inner.holder⟩
      else ⟨0, container⟩
    | _ => ⟨0, container⟩

/-- The steps of known indexes. -/
def known (path : List Index) : List Step :=
  path.map .index

theorem ne_nil_of_known {path : List Index} (more : known path ≠ []) : path ≠ [] :=
  mt List.map_eq_nil_iff.mpr more

/-- A write stops at its first step when it does not write inside the slot there. -/
theorem stop_here {path : List Index}
    (stops : known path = [] ∨
      ∀ slot, container.slot? index = .ok (some slot) → slot.isContainer = false) :
    stop container (index :: path) = ⟨0, container⟩ := by
  cases path with
  | nil => rfl
  | cons next path =>
    unfold stop
    split
    · rename_i slot found
      rcases stops with last | simple
      · cases last
      · rw [simple slot found]
        rfl
    · rfl

theorem stop_deeper {path : List Index} (more : path ≠ [])
    (found : container.slot? index = .ok (some slot)) (enters : container.enters slot = .ok true) :
    stop container (index :: path) = ⟨(stop slot path).step + 1, (stop slot path).holder⟩ := by
  obtain ⟨next, path, rfl⟩ := List.exists_cons_of_ne_nil more
  rw [stop, found]
  exact if_pos (Value.isContainer_of_enters enters)

theorem write_type {path : List Index} (nonempty : path ≠ [])
    (ran : (write value container (known path)).run stack = (.ok written, after)) :
    written.type = container.type := by
  obtain ⟨index, path, rfl⟩ := List.exists_cons_of_ne_nil nonempty
  exact (write_cases rfl ran).type

/-- Behind the step where a write stopped, the walk goes on from the value. -/
theorem walk_back {path : List Index} (nonempty : path ≠ [])
    (ran : (write value container (known path)).run stack = (.ok written, after))
    (rest : List Step) :
    (walk written (known (path.take ((stop container path).step + 1)) ++ rest)).run stack =
      (resume (stop container path).holder value rest).run stack := by
  induction path generalizing container written with
  | nil => exact absurd rfl nonempty
  | cons index path ih =>
    cases write_cases rfl ran with
    | stopped stops stored =>
      rw [stop_here stops]
      exact walk_holding rfl (put_holds stored)
    | @inside slot inner _ more found enters wrote restored =>
      have further := ne_nil_of_known more
      have entered : container.enters inner = .ok true := by
        rw [← enters]
        exact Value.enters_congr rfl (write_type further wrote)
      rw [stop_deeper further found enters, List.take_succ_cons]
      obtain ⟨next, path, rfl⟩ := List.exists_cons_of_ne_nil further
      calc (walk written (.index index :: (known _ ++ rest))).run stack
          = (resume container inner (known _ ++ rest)).run stack :=
          walk_holding rfl (restored ▸ putBack_holds found inner)
        _ = (walk inner (known _ ++ rest)).run stack := by
          rw [resume, entered]
          rfl
        _ = _ := ih further wrote

/-- The holder where a write stops is a container. -/
theorem stop_holder (isContainer : container.isContainer = true) (path : List Index) :
    (stop container path).holder.isContainer = true := by
  fun_induction stop container path with
  | case1 => exact isContainer
  | case2 => exact isContainer
  | case3 _ _ _ _ _ _ inside _ ih => exact ih inside
  | case4 => exact isContainer
  | case5 => exact isContainer

theorem stop_step {path : List Index} (nonempty : path ≠ []) (container : Value) :
    (stop container path).step < path.length := by
  fun_induction stop container path with
  | case1 => exact absurd rfl nonempty
  | case2 => exact Nat.one_pos
  | case3 _ _ _ _ _ _ _ _ ih => exact Nat.succ_lt_succ (ih (List.cons_ne_nil _ _))
  | case4 => exact Nat.succ_pos _
  | case5 => exact Nat.succ_pos _

/-! ## Known indexes pop nothing -/

theorem walk_known (path : List Index) (container : Value) (stack : Stack) :
    ((walk container (known path)).run stack).2 = stack := by
  induction path generalizing container with
  | nil => rfl
  | cons index path ih =>
    have walks : (walk container (known (index :: path))).run stack = _ := walk_cons rfl
    rw [walks]
    split
    · rfl
    · rfl
    · split
      · rfl
      · split
        · rfl
        · exact ih _
        · rfl

theorem read_known (path : List Index) (container : Value) (stack : Stack) :
    ((read container (known path)).run stack).2 = stack := by
  unfold read
  split
  · exact walk_known path container stack
  · rfl

theorem write_known {path : List Index}
    (ran : (write value container (known path)).run stack = (.ok written, after)) :
    after = stack := by
  induction path generalizing container written with
  | nil =>
    cases ran
    rfl
  | cons index path ih =>
    cases write_cases rfl ran with
    | stopped _ _ => rfl
    | inside _ _ _ wrote _ => exact ih wrote

/-! ## Reading back -/

/-- **What a write puts into a slot can be read back.** Let a write along known indexes succeed,
and let `stop` be where it stopped. The path up to that step leads to the value. The whole
path leads there too if it ends with that step, or if the value is no container. Otherwise the
steps left over are those of a read inside the value, unless it is a dict in a slot of an array,
which no walk enters. The stack stays as it is. -/
theorem read_back (value container : Value) (path : List Index) (stack : Stack)
    (isContainer : container.isContainer = true) (nonempty : path ≠ []) {written : Value}
    {after : Stack} (wrote : (write value container (known path)).run stack = (.ok written, after)) :
    let stop := stop container path
    let left := path.drop (stop.step + 1)
    stop.step < path.length ∧ after = stack ∧
      (read written (known (path.take (stop.step + 1)))).run stack = (.ok (some value), stack) ∧
      (left = [] ∨ value.isContainer = false →
        (read written (known path)).run stack = (.ok (some value), stack)) ∧
      (left ≠ [] → value.isContainer = true → stop.holder.type = .dict ∨ value.type = .array →
        (read written (known path)).run stack = (read value (known left)).run stack) ∧
      (left ≠ [] → value.type = .dict → stop.holder.type = .array →
        ∃ fault, (read written (known path)).run stack = (.error fault, stack) ∧
          fault.kind = .shapeMismatch) ∧
      ((read written (known path)).run stack).2 = stack := by
  intro stop left
  have holds : stop.holder.isContainer = true := stop_holder isContainer path
  have same := Value.isContainer_congr (write_type nonempty wrote)
  have reads (steps : List Step) : read written steps = walk written steps :=
    if_pos (same.trans isContainer)
  have whole : (read written (known path)).run stack =
      (resume stop.holder value (known left)).run stack := by
    have walked := walk_back nonempty wrote (known left)
    rwa [known, known, ← List.map_append, List.take_append_drop, ← reads] at walked
  refine ⟨stop_step nonempty container, write_known wrote, ?_, ?_, ?_, ?_, read_known path written stack⟩
  · have walked := walk_back nonempty wrote []
    rwa [List.append_nil, ← reads] at walked
  · rintro (last | simple)
    · rw [whole, last]
      rfl
    · rw [whole, resume_simple simple]
      rfl
  · intro more inside entered
    have enters : stop.holder.enters value = .ok true := by
      rw [Value.enters_eq]
      rcases Value.isContainer_iff.mp holds with isArray | isDict
      · have array := entered.resolve_left (by rw [isArray]; decide)
        rw [isArray, array]
        rfl
      · rw [isDict, inside]
    rw [whole, resume_inside (by simpa [known] using more) enters, read, if_pos inside]
  · intro more isDict isArray
    have refused : stop.holder.enters value = .error .dictInArray := by
      rw [Value.enters_eq, isArray, isDict]
      rfl
    rw [whole, resume_refused (by simpa [known] using more) refused]
    exact ⟨.dictInArray, rfl, rfl⟩

/-- An array is written past the end of an array in a dict, with a step left over, which then
leads into it. -/
theorem read_back_padded :
    let container : Value := .dict [("a", .array [.boolean true])]
    let path : List Index := [.key "a", .position 2, .position 0]
    let value : Value := .array [.text "x"]
    let written : Value := .dict [("a", .array [.boolean true, .null, value])]
    container.isContainer = true ∧ (write value container (known path)).run [] = (.ok written, []) ∧
      (stop container path).step = 1 ∧
      (read written (known [.key "a", .position 2])).run [] = (.ok (some value), []) ∧
      (read written (known path)).run [] = (.ok (some (.text "x")), []) := by
  intro container path value written
  have wrote : (write value container (known path)).run [] = (.ok written, []) := rfl
  obtain ⟨_, _, back, _, inside, _⟩ :=
    read_back value container path [] rfl (List.cons_ne_nil _ _) wrote
  exact ⟨rfl, wrote, rfl, back, inside (List.cons_ne_nil _ _) rfl (.inr rfl)⟩

end Slot

end StackScript
