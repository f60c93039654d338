/-
# StackScript.Proofs.Elements — what constructing a literal takes from the stack

The elements of an array literal are resolved one after the other. Those of a dict
literal are pushed, popped and sorted by key. It comes to the same: equal elements
give equal values, fail alike and leave the same machine (`construct_alike`).

A literal pops no more values than there are `&0` segments in the pushes among its
elements (`construct_consumes`). `OnStack.AtMost` is that bound for any work on the
stack. It adds up along `bind` and over the elements of a literal, and a walk that
stops early, or an element that fails, only makes the count smaller. What stands in a
program inside the literal does not count, since the program is not run.
-/
import Mathlib
import StackScript.Proofs.Machine

namespace StackScript

set_option autoImplicit false

/-! ## Two literals with the same elements -/

/-- **Array and dict literals construct their elements alike.** On any machine, an array literal
and a dict literal with the same elements, the latter under distinct keys, leave the same machine,
and both fail in the same way or both succeed. Then the dict holds under each key the value at its
place in the array, and nothing else. -/
theorem construct_alike {σ : Type} (machine : Machine σ) (keys : List String) (literals : List Json)
    (paired : keys.length = literals.length) (distinct : keys.Nodup) :
    let arrayLiteral := Json.object [(arrayTag, .array literals)]
    let dictLiteral := Json.object [(dictTag, .object (keys.zip literals))]
    let first := (Action.onStack (construct machine.context.bindings arrayLiteral)).run machine
    let second := (Action.onStack (construct machine.context.bindings dictLiteral)).run machine
    second.2 = first.2 ∧
      ((∃ values entries, first.1 = .ok (.array values) ∧ second.1 = .ok (.dict entries) ∧
          values.length = keys.length ∧ Entries.Ascending entries ∧
          ∀ key value, Entries.find? key entries = some value ↔ (key, value) ∈ keys.zip values) ∨
        ∃ failure, first.1 = .error failure ∧ second.1 = .error failure) := by
  intro arrayLiteral dictLiteral first second
  have names : (keys.zip literals).map Prod.fst = keys := List.map_fst_zip paired.le
  have elements : (keys.zip literals).map Prod.snd = literals := List.map_snd_zip paired.ge
  have one : first = _ := Action.run_onStack ..
  have two : second = _ := Action.run_onStack ..
  rw [construct_array, Work.run_bind] at one
  rw [construct_dict, names, elements, Work.run_bind] at two
  rw [one, two]
  rcases ran : (literals.mapM (constructElement machine.context.bindings)).run
    machine.context.stack with ⟨fault | values, rest⟩
  · exact ⟨rfl, .inr ⟨{ fault }, rfl, rfl⟩⟩
  · have length : values.length = keys.length := (Work.length_mapM ran).trans paired.symm
    have again : (keys.zip values).map Prod.fst = keys := List.map_fst_zip length.ge
    refine ⟨rfl, .inl ⟨values, Entries.ofList (keys.zip values), rfl, rfl, length, ?_, ?_⟩⟩
    · exact Entries.ascending_ofList _
    · intro key value
      apply Entries.find?_ofList
      rwa [again]

/-- Both take a key from the stack for the first element and one for the second, which is a
literal of its own. The array keeps their order and the dict sorts them. -/
theorem construct_alike_nested :
    let held : Value := .dict [("x", .null), ("y", .boolean true)]
    let machine : Machine Unit :=
      { host := (), context := { stack := [.text "x", .text "y"], bindings := [("v", held)] } }
    let literals : List Json :=
      [.string "$v.&0", .object [(arrayTag, .array [.string "$v.&0"])]]
    let keys := ["b", "a"]
    let literal := Json.object [(dictTag, .object (keys.zip literals))]
    let after := (Action.onStack (construct machine.context.bindings literal)).run machine
    keys.Nodup ∧ after.2 = { machine with context := { machine.context with stack := [] } } ∧
      ∃ entries, after.1 = .ok (.dict entries) ∧ Entries.find? "b" entries = some .null ∧
        Entries.find? "a" entries = some (.array [.boolean true]) := by
  intro held machine literals keys literal after
  have distinct : keys.Nodup := by decide
  have built : (Action.onStack (construct machine.context.bindings
      (.object [(arrayTag, .array literals)]))).run machine =
      (.ok (.array [.null, .array [.boolean true]]),
        { machine with context := { machine.context with stack := [] } }) := rfl
  obtain ⟨same, ⟨values, entries, array, dict, _, _, holds⟩ | ⟨failure, failed, _⟩⟩ :=
    construct_alike machine keys literals rfl distinct
  · rw [built] at same array
    cases array
    exact ⟨distinct, same, entries, dict, (holds "b" .null).mpr (.head _),
      (holds "a" (.array [.boolean true])).mpr (.tail _ (.head _))⟩
  · rw [built] at failed
    cases failed

/-! ## Counting -/

/-- How many `&0` segments a push has; none if the text is no push. -/
def pushIndexes (text : String) : Nat :=
  match Path.ofPush? text with
  | some path => path.segments.count .top
  | none => 0

mutual

/-- How many `&0` segments stand in the pushes that are elements of an array or entries of a dict,
in a literal and the literals inside it. A program has none: what stands in it is not resolved
before it runs. -/
def Json.stackIndexes : Json → Nat
  | .object [(tag, .array items)] => if tag = arrayTag then Json.itemIndexes items else 0
  | .object [(tag, .object entries)] => if tag = dictTag then Json.entryIndexes entries else 0
  | _ => 0

def Json.itemIndexes : List Json → Nat
  | [] => 0
  | .string text :: rest => pushIndexes text + Json.itemIndexes rest
  | literal :: rest => literal.stackIndexes + Json.itemIndexes rest

def Json.entryIndexes : List (String × Json) → Nat
  | [] => 0
  | (_, .string text) :: rest => pushIndexes text + Json.entryIndexes rest
  | (_, literal) :: rest => literal.stackIndexes + Json.entryIndexes rest

end

/-- How many `&0` segments one element adds. -/
def Json.elementIndexes : Json → Nat
  | .string text => pushIndexes text
  | literal => literal.stackIndexes

theorem Json.itemIndexes_eq (items : List Json) :
    Json.itemIndexes items = (items.map Json.elementIndexes).sum := by
  induction items with
  | nil => rfl
  | cons item items ih => cases item <;> simp [Json.itemIndexes, Json.elementIndexes, ih]

theorem Json.entryIndexes_eq (entries : List (String × Json)) :
    Json.entryIndexes entries = ((entries.map Prod.snd).map Json.elementIndexes).sum := by
  induction entries with
  | nil => rfl
  | cons entry entries ih =>
    obtain ⟨key, tree⟩ := entry
    cases tree <;> simp [Json.entryIndexes, Json.elementIndexes, ih]

theorem Json.stackIndexes_array (items : List Json) :
    (Json.object [(arrayTag, .array items)]).stackIndexes =
      (items.map Json.elementIndexes).sum := by
  rw [Json.stackIndexes, if_pos rfl, Json.itemIndexes_eq]

theorem Json.stackIndexes_dict (entries : List (String × Json)) :
    (Json.object [(dictTag, .object entries)]).stackIndexes =
      ((entries.map Prod.snd).map Json.elementIndexes).sum := by
  rw [Json.stackIndexes, if_pos rfl, Json.entryIndexes_eq]

/-! ## Popping -/

/-- Work that takes at most so many values off the stack, however it ends. -/
def OnStack.AtMost {α : Type} (count : Nat) (work : OnStack α) : Prop :=
  ∀ stack, stack.length ≤ (work.run stack).2.length + count

namespace OnStack.AtMost

variable {α β : Type} {count more : Nat}

theorem pure (result : α) : AtMost count (Pure.pure result : OnStack α) :=
  fun _ => Nat.le_add_right _ _

theorem throw (fault : Fault) : AtMost count (MonadExcept.throw fault : OnStack α) :=
  fun _ => Nat.le_add_right _ _

theorem pop : AtMost 1 Stack.pop := by
  intro stack
  cases stack with
  | nil => exact Nat.zero_le _
  | cons value rest => exact Nat.le_refl _

theorem bind {work : OnStack α} {next : α → OnStack β} (first : AtMost count work)
    (rest : ∀ result, AtMost more (next result)) : AtMost (count + more) (work >>= next) := by
  intro stack
  have popped := first stack
  rw [Work.run_bind]
  rcases ran : work.run stack with ⟨_ | result, middle⟩ <;> rw [ran] at popped
  · dsimp only at popped ⊢
    omega
  · have later := rest result middle
    dsimp only at popped ⊢
    omega

/-- Work that pops nothing more after its first part. -/
theorem finish {work : OnStack α} {next : α → OnStack β} (first : AtMost count work)
    (rest : ∀ result, AtMost 0 (next result)) : AtMost count (work >>= next) :=
  first.bind rest

theorem mapM {each : α → OnStack β} {costs : α → Nat} {items : List α}
    (single : ∀ item ∈ items, AtMost (costs item) (each item)) :
    AtMost (items.map costs).sum (items.mapM each) := by
  induction items with
  | nil => exact .pure []
  | cons item items ih =>
    rw [List.mapM_cons, List.map_cons, List.sum_cons]
    refine .bind (single item List.mem_cons_self) fun result => ?_
    refine .finish (ih fun item member => single item (List.mem_cons_of_mem _ member)) ?_
    intro results
    exact .pure _

end OnStack.AtMost

open OnStack (AtMost)

theorem Step.resolve_atMost (step : Step) : AtMost ([step].count .top) step.resolve := by
  cases step with
  | index known => exact .pure known
  | top =>
    refine .finish .pop fun value => ?_
    split
    · exact .pure _
    · exact .throw _

theorem Slot.walk_atMost (current : Value) (path : List Step) :
    AtMost (path.count .top) (Slot.walk current path) := by
  induction path generalizing current with
  | nil => exact .pure _
  | cons step rest ih =>
    have cut : (step :: rest).count .top = [step].count .top + rest.count .top := by
      rw [← List.count_append, List.singleton_append]
    rw [cut]
    refine .bind step.resolve_atMost fun index => ?_
    split
    · exact .throw _
    · exact .pure _
    · split
      · exact .pure _
      · split
        · exact .throw _
        · exact ih _
        · exact .pure _

theorem Slot.read_atMost (container : Value) (path : List Step) :
    AtMost (path.count .top) (Slot.read container path) := by
  unfold Slot.read
  split
  · exact Slot.walk_atMost container path
  · exact .throw _

/-! ## Pushes -/

theorem Segment.resolve_top {bindings : List (String × Value)} {segment : Segment} {step : Step}
    (resolved : segment.resolve bindings = .ok step) : step = .top ↔ segment = .top := by
  cases segment with
  | top =>
    cases resolved
    exact iff_of_true rfl rfl
  | key name =>
    cases resolved
    simp
  | position digits =>
    rw [Segment.resolve] at resolved
    split at resolved <;> cases resolved
    simp
  | reference name =>
    rw [Segment.resolve] at resolved
    split at resolved
    · rename_i value _
      cases read : Index.ofValue value with
      | error fault => rw [read] at resolved; cases resolved
      | ok index =>
        rw [read] at resolved
        cases resolved
        simp
    · cases resolved

/-- A path has a step on the stack for each of its `&0` segments. -/
theorem Path.count_steps {bindings : List (String × Value)} {path : Path} {steps : List Step}
    (resolved : path.steps bindings = .ok steps) :
    steps.count .top = path.segments.count .top := by
  unfold Path.steps at resolved
  generalize path.segments = segments at resolved
  induction segments generalizing steps with
  | nil =>
    cases resolved
    rfl
  | cons segment segments ih =>
    rw [List.mapM_cons] at resolved
    cases first : segment.resolve bindings with
    | error fault => rw [first] at resolved; cases resolved
    | ok step =>
      cases later : segments.mapM (Segment.resolve bindings) with
      | error fault => rw [first, later] at resolved; cases resolved
      | ok rest =>
        rw [first, later] at resolved
        cases resolved
        simp only [List.count_cons, ih later, beq_iff_eq, Segment.resolve_top first]

variable (bindings : List (String × Value))

theorem Path.resolvePush_atMost (path : Path) :
    AtMost (path.segments.count .top) (path.resolvePush bindings) := by
  unfold Path.resolvePush
  split
  · exact .throw _
  · split
    · exact .pure _
    · split
      · exact .throw _
      · rename_i steps resolved
        rw [← Path.count_steps resolved]
        refine .finish (Slot.read_atMost _ _) fun found => ?_
        split
        · exact .pure _
        · exact .throw _

theorem resolveElement_atMost (text : String) :
    AtMost (pushIndexes text) (resolveElement bindings text) := by
  unfold resolveElement pushIndexes
  cases Path.ofPush? text with
  | none => exact .throw _
  | some path => exact path.resolvePush_atMost bindings

/-! ## Literals -/

theorem constructElement_atMost {tree : Json}
    (constructs : AtMost tree.stackIndexes (construct bindings tree)) :
    AtMost tree.elementIndexes (constructElement bindings tree) := by
  cases tree with
  | string text => exact resolveElement_atMost bindings text
  | _ => exact constructs

/-- The bound adds up over the elements of a literal and of the literals among them. -/
theorem construct_atMost (tree : Json) : AtMost tree.stackIndexes (construct bindings tree) := by
  induction tree using Json.literalInduction with
  | null | bool _ | integer _ | float _ _ | text _ => exact .pure _
  | string text => exact .throw _
  | program items notText _ =>
    rw [construct_program bindings notText]
    exact .pure _
  | array items ih =>
    rw [construct_array, Json.stackIndexes_array]
    refine .finish (.mapM fun item member => ?_) fun values => .pure _
    exact constructElement_atMost bindings (ih item member)
  | dict entries ih =>
    rw [construct_dict, Json.stackIndexes_dict]
    refine .finish (.mapM fun item member => ?_) fun values => .pure _
    obtain ⟨entry, within, rfl⟩ := List.mem_map.mp member
    exact constructElement_atMost bindings (ih entry within)
  | other entries notArray notDict =>
    rw [construct_other bindings notArray notDict]
    exact .throw _

/-- **Constructing a literal takes nothing but indexes from the stack.** Whether it succeeds or
fails, the machine differs in its stack alone, which has lost some values from its top: at most
as many as there are `&0` segments in the pushes that are elements of the literal or of array and
dict literals inside it. Text and programs take nothing, whatever stands in them. -/
theorem construct_consumes {σ : Type} (machine : Machine σ) (tree : Json) :
    ∃ popped rest, machine.context.stack = popped ++ rest ∧
      ((Action.onStack (construct machine.context.bindings tree)).run machine).2 =
        { machine with context := { machine.context with stack := rest } } ∧
      popped.length ≤ tree.stackIndexes ∧ ∀ items, tree = .array items → popped = [] := by
  have most := construct_atMost machine.context.bindings tree machine.context.stack
  obtain ⟨popped, whole⟩ := (construct_frugal machine.context.bindings tree).pops
    machine.context.stack
  have parts := congrArg List.length whole
  rw [List.length_append] at parts
  have bound : popped.length ≤ tree.stackIndexes := by omega
  refine ⟨popped, _, whole.symm, by rw [Action.run_onStack], bound, ?_⟩
  rintro items rfl
  have none : (Json.array items).stackIndexes = 0 := by simp [Json.stackIndexes]
  exact List.length_eq_zero_iff.mp (Nat.le_zero.mp (none ▸ bound))

end StackScript
