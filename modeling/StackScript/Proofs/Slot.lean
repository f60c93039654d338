/-
# StackScript.Proofs.Slot — reading and writing take one walk

A read and a write of the same path pop the same values, stop at the same slot
and fail alike (`read_write_agree`). `Slot.Reached` ties the walk to an address,
the indexes of the steps that were taken; `Slot.Swapped` says that two containers
are the same but for what stands at an address.
-/
import StackScript.Proofs.Machine

namespace StackScript

set_option autoImplicit false

theorem Value.isContainer_of_enters {holder slot : Value}
    (enters : holder.enters slot = .ok true) : slot.isContainer = true := by
  cases holder with
  | array _ =>
    cases slot with
    | array _ => rfl
    | _ => cases enters
  | dict _ => exact Except.ok.inj enters
  | _ => cases enters

namespace Slot

/-- The steps at the front of the path, resolved against the stack one after the
other, give the address, and `rest` is what they leave of the stack. -/
def Reached (path : List Step) (stack : Stack) (address : List Index) (rest : Stack) : Prop :=
  ∃ taken, taken <+: path ∧ (taken.mapM Step.resolve).run stack = (.ok address, rest)

theorem Reached.nil (path : List Step) (stack : Stack) : Reached path stack [] stack :=
  ⟨[], List.nil_prefix, rfl⟩

theorem Reached.cons {step : Step} {path : List Step} {stack middle rest : Stack} {index : Index}
    {address : List Index} (resolved : step.resolve.run stack = (.ok index, middle))
    (reached : Reached path middle address rest) :
    Reached (step :: path) stack (index :: address) rest := by
  obtain ⟨taken, front, ran⟩ := reached
  refine ⟨step :: taken, List.cons_prefix_cons.mpr ⟨rfl, front⟩, ?_⟩
  rw [List.mapM_cons, Work.run_bind_ok resolved, Work.run_bind_ok ran]
  rfl

/-- `after` holds `new` where `before` holds `old`, at the address; nothing else
about them differs. -/
inductive Swapped (old new : Value) : List Index → Value → Value → Prop
  | here : Swapped old new [] old new
  | item {rest : List Index} {before after : List Value} {inner inner' : Value}
      (deeper : Swapped old new rest inner inner') :
      Swapped old new (.position before.length :: rest)
        (.array (before ++ inner :: after)) (.array (before ++ inner' :: after))
  | entry {index : Index} {rest : List Index} {before after : List (String × Value)}
      {inner inner' : Value} (first : Entries.find? index.toKey before = none)
      (deeper : Swapped old new rest inner inner') :
      Swapped old new (index :: rest)
        (.dict (before ++ (index.toKey, inner) :: after))
        (.dict (before ++ (index.toKey, inner') :: after))

variable {items : List Value} {entries : List (String × Value)} {old new inner inner' : Value}
  {rest : List Index}

theorem Swapped.set {n : Nat} (found : items[n]? = some inner)
    (deeper : Swapped old new rest inner inner') :
    Swapped old new (.position n :: rest) (.array items) (.array (items.set n inner')) := by
  obtain ⟨bound, rfl⟩ := List.getElem?_eq_some_iff.mp found
  have width : (items.take n).length = n := List.length_take_of_le bound.le
  have whole : items = items.take n ++ items[n] :: items.drop (n + 1) := by simp
  have changed : items.set n inner' = items.take n ++ inner' :: items.drop (n + 1) := by
    rw [List.set_eq_take_append_cons_drop, if_pos bound]
  have swapped : Swapped old new (.position (items.take n).length :: rest)
      (.array (items.take n ++ items[n] :: items.drop (n + 1)))
      (.array (items.take n ++ inner' :: items.drop (n + 1))) := .item deeper
  rwa [width, ← whole, ← changed] at swapped

theorem Swapped.replace {index : Index} (found : Entries.find? index.toKey entries = some inner)
    (deeper : Swapped old new rest inner inner') :
    Swapped old new (index :: rest) (.dict entries)
      (.dict (Entries.replace index.toKey inner' entries)) := by
  obtain ⟨before, after, rfl, first, replaced⟩ := Entries.replace_eq found inner'
  rw [replaced]
  exact .entry first deeper

theorem Swapped.putBack {container : Value} {index : Index}
    (found : container.slot? index = .ok (some inner)) (deeper : Swapped old new rest inner inner') :
    Swapped old new (index :: rest) container (Slot.putBack container index inner') := by
  cases container with
  | array items =>
    cases index with
    | key name => cases found
    | position n => exact .set (Except.ok.inj found) deeper
  | dict entries => exact .replace (Except.ok.inj found) deeper
  | _ => cases found

/-- A container holds a value at an address. -/
def Holds (container : Value) (address : List Index) (held : Value) : Prop :=
  Swapped held held address container container

/-- The index is a position that a write may not stretch the array to. -/
def TooFar (holder : Value) (index : Index) : Prop :=
  ∃ items n, holder = .array items ∧ index = .position n ∧ items.length + 65536 < n + 1

/-- `filled` is the holder with the value in a slot that it lacked: past the end of
an array, which grows by nulls up to there, or under a new key of a dict. -/
inductive Added (value : Value) : Index → Value → Value → Prop
  | item {items : List Value} {n : Nat} (past : items.length ≤ n) :
      Added value (.position n) (.array items)
        (.array (items ++ List.replicate (n - items.length) .null ++ [value]))
  | entry {entries : List (String × Value)} {index : Index}
      (absent : Entries.find? index.toKey entries = none) :
      Added value index (.dict entries) (.dict (Entries.insert index.toKey value entries))

/-- Writing a value into a container does what reading the same path says. A fault
of the read is the fault of the write. A slot that is read is the one that is
replaced, and it alone. A slot that is absent is made, unless it lies too far
beyond the end of an array. The stack is the same after both. -/
def Agree (value container : Value) (path : List Step) (stack : Stack) : Prop :=
  match (read container path).run stack with
  | (.error fault, rest) => (write value container path).run stack = (.error fault, rest)
  | (.ok (some slot), rest) =>
    ∃ address after, Reached path stack address rest ∧
      (write value container path).run stack = (.ok after, rest) ∧
      Swapped slot value address container after
  | (.ok none, rest) =>
    ∃ address index holder, Reached path stack (address ++ [index]) rest ∧
      Holds container address holder ∧ holder.slot? index = .ok none ∧
      (TooFar holder index → ∃ fault, (write value container path).run stack = (.error fault, rest) ∧
        fault.kind = .invalidIndex) ∧
      (¬ TooFar holder index → ∃ filled after, Added value index holder filled ∧
        (write value container path).run stack = (.ok after, rest) ∧
        Swapped holder filled address container after)

/-! ## Storing into an array -/

theorem store_inside {n : Nat} (bound : n < items.length) (value : Value) :
    store items n value = .ok (items.set n value) := by
  simp [store, bound]

theorem store_past {n : Nat} (past : items.length ≤ n) (fits : n + 1 ≤ items.length + 65536)
    (value : Value) :
    store items n value = .ok (items ++ List.replicate (n - items.length) .null ++ [value]) := by
  have growth : n + 1 - items.length ≤ maxGrowth := by unfold maxGrowth; omega
  simp only [store, past.not_gt, growth, if_true, if_false]

theorem store_far {n : Nat} (far : items.length + 65536 < n + 1) (value : Value) :
    store items n value = .error (.positionOutOfRange (toString n)) := by
  have outside : ¬ n < items.length := by omega
  have growth : ¬ n + 1 - items.length ≤ maxGrowth := by unfold maxGrowth; omega
  simp only [store, outside, growth, if_false]

/-! ## One slot -/

section Steps

variable {value container slot : Value} {step : Step} {path : List Step} {stack middle : Stack}
  {index : Index}

/-- In a slot that the container has, a value takes the place of the old one. -/
theorem put_present (ordered : container.Ordered) (found : container.slot? index = .ok (some slot))
    (value : Value) : put container index value = .ok (putBack container index value) := by
  cases container with
  | array items =>
    cases index with
    | key name => cases found
    | position n =>
      obtain ⟨bound, _⟩ := List.getElem?_eq_some_iff.mp (Except.ok.inj found)
      rw [put, store_inside bound]
      rfl
  | dict entries =>
    have held : Entries.find? index.toKey entries = some slot := Except.ok.inj found
    rw [put, Entries.insert_eq_replace ordered.ascending held]
    rfl
  | _ => cases found

/-- A slot that the container lacks is made, or lies too far away. -/
theorem put_absent (absent : container.slot? index = .ok none) (value : Value) :
    (TooFar container index → ∃ fault, put container index value = .error fault ∧
        fault.kind = .invalidIndex) ∧
      (¬ TooFar container index → ∃ filled, put container index value = .ok filled ∧
        Added value index container filled) := by
  cases container with
  | array items =>
    cases index with
    | key name => cases absent
    | position n =>
      have past : items.length ≤ n := List.getElem?_eq_none_iff.mp (Except.ok.inj absent)
      constructor
      · rintro ⟨_, _, same, position, far⟩
        cases same
        cases position
        exact ⟨_, by rw [put, store_far far], rfl⟩
      · intro near
        have fits : n + 1 ≤ items.length + 65536 :=
          not_lt.mp fun far => near ⟨items, n, rfl, rfl, far⟩
        exact ⟨_, by rw [put, store_past past fits], .item past⟩
  | dict entries =>
    refine ⟨?_, fun _ => ⟨_, rfl, .entry (Except.ok.inj absent)⟩⟩
    rintro ⟨_, _, same, _⟩
    cases same
  | _ => cases absent

/-! ## One step -/

theorem walk_cons (resolved : step.resolve.run stack = (.ok index, middle)) :
    (walk container (step :: path)).run stack =
      (match container.slot? index with
        | .error fault => throw fault
        | .ok none => pure none
        | .ok (some slot) =>
          if path.isEmpty then pure (some slot)
          else
            match container.enters slot with
            | .error fault => throw fault
            | .ok true => walk slot path
            | .ok false => pure (some slot) : OnStack (Option Value)).run middle :=
  Work.run_bind_ok resolved _

theorem write_cons (resolved : step.resolve.run stack = (.ok index, middle)) :
    (write value container (step :: path)).run stack =
      (match container.slot? index with
        | .error fault => throw fault
        | .ok none => MonadExcept.ofExcept (put container index value)
        | .ok (some slot) =>
          if path.isEmpty then MonadExcept.ofExcept (put container index value)
          else
            match container.enters slot with
            | .error fault => throw fault
            | .ok true => do
              let written ← write value slot path
              pure (putBack container index written)
            | .ok false => MonadExcept.ofExcept (put container index value) : OnStack Value).run
        middle := by
  rw [write_step]
  exact Work.run_bind_ok resolved _

theorem write_unresolved {fault : Fault} (failed : step.resolve.run stack = (.error fault, middle)) :
    (write value container (step :: path)).run stack = (.error fault, middle) := by
  rw [write_step]
  exact Work.run_bind_error failed _

/-- A walk that goes on from a slot agrees with a write that goes on from it and
puts the written slot back. -/
theorem Agree.deeper (resolved : step.resolve.run stack = (.ok index, middle))
    (found : container.slot? index = .ok (some slot))
    (walks : (read container (step :: path)).run stack = (read slot path).run middle)
    (writes : (write value container (step :: path)).run stack =
      (write value slot path >>= fun written => pure (putBack container index written)).run middle)
    (agree : Agree value slot path middle) : Agree value container (step :: path) stack := by
  unfold Agree at agree ⊢
  rw [walks, writes]
  rcases ran : (read slot path).run middle with ⟨_ | _ | held, rest⟩ <;> rw [ran] at agree
  · exact Work.run_bind_error agree _
  · obtain ⟨address, last, holder, reached, holds, vacant, refused, written⟩ := agree
    refine ⟨index :: address, last, holder, reached.cons resolved, ?_, vacant, ?_, ?_⟩
    · have same := Swapped.putBack found holds
      rwa [putBack_self found] at same
    · intro far
      obtain ⟨fault, failed, kind⟩ := refused far
      exact ⟨fault, Work.run_bind_error failed _, kind⟩
    · intro near
      obtain ⟨filled, after, added, ran, swapped⟩ := written near
      exact ⟨filled, _, added, Work.run_bind_ok ran _, .putBack found swapped⟩
  · obtain ⟨address, after, reached, ran, swapped⟩ := agree
    exact ⟨index :: address, _, reached.cons resolved, Work.run_bind_ok ran _,
      .putBack found swapped⟩

/-- A walk that stops at a slot agrees with a write that replaces it. -/
theorem Agree.stop (resolved : step.resolve.run stack = (.ok index, middle))
    (ordered : container.Ordered) (found : container.slot? index = .ok (some slot))
    (walks : (read container (step :: path)).run stack = (.ok (some slot), middle))
    (writes : (write value container (step :: path)).run stack =
      (put container index value, middle)) :
    Agree value container (step :: path) stack := by
  rw [put_present ordered found] at writes
  unfold Agree
  rw [walks]
  exact ⟨[index], _, (Reached.nil path middle).cons resolved, writes, .putBack found .here⟩

/-- A walk that finds no slot agrees with a write that makes one, or refuses to. -/
theorem Agree.vacant (resolved : step.resolve.run stack = (.ok index, middle))
    (absent : container.slot? index = .ok none)
    (walks : (read container (step :: path)).run stack = (.ok none, middle))
    (writes : (write value container (step :: path)).run stack =
      (put container index value, middle)) :
    Agree value container (step :: path) stack := by
  obtain ⟨far, near⟩ := put_absent absent value
  unfold Agree
  rw [walks, writes]
  refine ⟨[], index, container, (Reached.nil path middle).cons resolved, .here, absent, ?_, ?_⟩
  · intro tooFar
    obtain ⟨fault, refused, kind⟩ := far tooFar
    exact ⟨fault, by rw [refused], kind⟩
  · intro fits
    obtain ⟨filled, made, added⟩ := near fits
    exact ⟨filled, filled, added, by rw [made], .here⟩

theorem Agree.fault {fault : Fault}
    (walks : (read container path).run stack = (.error fault, middle))
    (writes : (write value container path).run stack = (.error fault, middle)) :
    Agree value container path stack := by
  unfold Agree
  rw [walks]
  exact writes

theorem agree_step (resolved : step.resolve.run stack = (.ok index, middle))
    (isContainer : container.isContainer = true) (ordered : container.Ordered)
    (deeper : ∀ slot, container.slot? index = .ok (some slot) → slot.isContainer = true →
      Agree value slot path middle) :
    Agree value container (step :: path) stack := by
  have reads : read container (step :: path) = walk container (step :: path) := if_pos isContainer
  have walks : (walk container (step :: path)).run stack = _ := walk_cons resolved
  rw [← reads] at walks
  have writes : (write value container (step :: path)).run stack = _ := write_cons resolved
  rcases found : container.slot? index with fault | _ | slot <;> rw [found] at walks writes
  · exact .fault walks writes
  · exact .vacant resolved found walks (writes.trans (Work.run_ofExcept ..))
  · dsimp only at walks writes
    cases last : path.isEmpty <;> rw [last] at walks writes
    · rcases enters : container.enters slot with fault | _ | _ <;> rw [enters] at walks writes
      · exact .fault walks writes
      · exact .stop resolved ordered found walks (writes.trans (Work.run_ofExcept ..))
      · have inner := Value.isContainer_of_enters enters
        have same : read slot path = walk slot path := if_pos inner
        exact .deeper resolved found (same ▸ walks) writes (deeper slot found inner)
    · exact .stop resolved ordered found walks (writes.trans (Work.run_ofExcept ..))

end Steps

/-! ## The whole walk -/

theorem agree_container (value : Value) (path : List Step) :
    ∀ (container : Value) (stack : Stack), container.isContainer = true → container.Ordered →
      Agree value container path stack := by
  induction path with
  | nil =>
    intro container stack isContainer _
    unfold Agree read
    rw [if_pos isContainer]
    exact ⟨[], value, .nil [] stack, rfl, .here⟩
  | cons step path ih =>
    intro container stack isContainer ordered
    rcases resolved : step.resolve.run stack with ⟨fault | index, middle⟩
    · refine .fault ?_ (write_unresolved resolved)
      rw [read, if_pos isContainer]
      exact Work.run_bind_error resolved _
    · exact agree_step resolved isContainer ordered fun slot found inner =>
        ih slot middle inner (ordered.slot found)

theorem write_notIndexable {container : Value} (simple : container.isContainer = false)
    (value : Value) {path : List Step} (nonempty : path ≠ []) (stack : Stack) :
    ∃ fault rest, (write value container path).run stack = (.error fault, rest) := by
  obtain ⟨step, path, rfl⟩ := List.exists_cons_of_ne_nil nonempty
  rcases resolved : step.resolve.run stack with ⟨fault | index, middle⟩
  · exact ⟨fault, middle, write_unresolved resolved⟩
  · refine ⟨.notIndexable container.type, middle, ?_⟩
    rw [write_cons resolved]
    cases container with
    | array _ | dict _ => cases simple
    | _ => rfl

/-- A pop into a slot that cannot be written leaves every variable as it was. -/
theorem executePop_failed {σ : Type} {machine : Machine σ} {target : Path} {value container : Value}
    {path : List Step} {stack rest : Stack} {fault : Fault}
    (stacked : machine.context.stack = value :: stack)
    (bound : Entries.find? target.name machine.context.bindings = some container)
    (steps : target.steps machine.context.bindings = .ok path) (nonempty : path ≠ [])
    (failed : (write value container path).run stack = (.error fault, rest)) :
    (Machine.executePop target).run machine =
      (.error { fault }, { machine with context := { machine.context with stack := rest } }) := by
  have popped : (Action.onStack Stack.pop).run machine =
      (.ok value, { machine with context := { machine.context with stack } }) := by
    rw [Action.run_onStack, stacked]
    rfl
  have notBare : ¬ target.isBare = true := by
    intro bare
    rw [Path.steps, List.isEmpty_iff.mp bare] at steps
    exact nonempty (Except.ok.inj steps).symm
  have refused : (Action.onStack (write value container path)).run
      { machine with context := { machine.context with stack } } =
      (.error { fault }, { machine with context := { machine.context with stack := rest } }) := by
    rw [Action.run_onStack, failed]
    rfl
  rw [Machine.executePop_eq, Work.run_bind_ok popped, if_neg notBare,
    Work.run_bind_ok (Action.run_getContext _)]
  simp only [bound, steps]
  exact Work.run_bind_error refused _

/-- **Reading and writing take one walk.** On an array or a dict they agree for
every path and every stack. Anything else cannot be indexed: reading pops nothing,
writing along a path fails, and so does a pop along it into a variable, which keeps
what it held. -/
theorem read_write_agree (value container : Value) (path : List Step) (stack : Stack)
    (ordered : container.Ordered) :
    (container.isContainer = true → Agree value container path stack) ∧
      (container.isContainer = false →
        (read container path).run stack = (.error (.notIndexable container.type), stack) ∧
        (Fault.notIndexable container.type).kind = .shapeMismatch ∧
        (path ≠ [] → ∃ fault rest,
          (write value container path).run stack = (.error fault, rest) ∧
          ∀ (σ : Type) (machine : Machine σ) (target : Path),
            machine.context.stack = value :: stack →
            Entries.find? target.name machine.context.bindings = some container →
            target.steps machine.context.bindings = .ok path →
            (Machine.executePop target).run machine =
              (.error { fault },
                { machine with context := { machine.context with stack := rest } }))) := by
  refine ⟨fun isContainer => agree_container value path container stack isContainer ordered, ?_⟩
  intro simple
  refine ⟨by simp [read, simple, Work.run_throw], rfl, fun nonempty => ?_⟩
  obtain ⟨fault, rest, failed⟩ := write_notIndexable simple value nonempty stack
  refine ⟨fault, rest, failed, ?_⟩
  intro σ machine target stacked bound steps
  exact executePop_failed stacked bound steps nonempty failed

/-- A walk that pops a key, enters an array and replaces the text it finds there. -/
theorem read_write_agree_nested :
    let container : Value := .dict [("a", .array [.null, .text "x"]), ("b", .null)]
    let path : List Step := [.top, .index (.position 1)]
    container.Ordered ∧ container.isContainer = true ∧
      ∃ address after, Reached path [.text "a", .null] address [.null] ∧
        (write (.boolean true) container path).run [.text "a", .null] = (.ok after, [.null]) ∧
        Swapped (.text "x") (.boolean true) address container after := by
  intro container path
  have null : Value.null.Ordered := (Piece.all_scalar rfl (by decide)).mpr trivial
  have text : (Value.text "x").Ordered := (Piece.all_scalar rfl (by decide)).mpr trivial
  have inner : (Value.array [.null, .text "x"]).Ordered :=
    Piece.all_array.mpr ⟨trivial, by simpa using ⟨null, text⟩⟩
  have ordered : container.Ordered :=
    Piece.all_dict.mpr ⟨List.pairwise_pair.mpr (by decide +kernel),
      by simpa using ⟨inner, null⟩⟩
  have agree := (read_write_agree (.boolean true) container path [.text "a", .null] ordered).1 rfl
  have found : (read container path).run [.text "a", .null] = (.ok (some (.text "x")), [.null]) := rfl
  rw [Agree, found] at agree
  exact ⟨ordered, rfl, agree⟩

end Slot

end StackScript
