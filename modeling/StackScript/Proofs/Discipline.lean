/-
# StackScript.Proofs.Discipline — what running programs keeps

A discipline says which dicts, functions and instructions may lie inside the
values of a context, and which names, function tables, natives and faults go with
them. Its laws concern single definitions: what an insertion makes of a dict, which
name a pop binds, which function a call finds. From them every run of every program
keeps its context within the discipline, however it ends (`Machine.evaluate_keeps`).
-/
import StackScript.Context
import StackScript.Proofs.Construct
import StackScript.Proofs.Piece

namespace StackScript

set_option autoImplicit false

open Work (Ensures)

structure Discipline where
  dict : List (String × Value) → Prop
  body : Body → Prop
  instruction : Instruction → Prop
  /-- What a variable may be called. -/
  name : String → Prop
  functions : List (String × Body) → Prop
  native : String → Prop
  fault : Fault → Prop

namespace Discipline

variable (d : Discipline)

/-- What the discipline asks of one piece, whatever lies inside it. -/
def ok : Piece → Prop
  | .value (.dict entries) => d.dict entries
  | .body body => d.body body
  | .instruction instruction => d.instruction instruction
  | _ => True

/-- A value that a context may hold. -/
def Allows (value : Value) : Prop :=
  Piece.All d.ok (.value value)

/-- A program that may run. -/
def Runs (program : Program) : Prop :=
  ∀ instruction ∈ program, Piece.All d.ok (.instruction instruction)

/-- A function that may be called. -/
def Calls : Body → Prop
  | .native name => d.native name
  | .program program => d.Runs program

structure Lawful : Prop where
  dict_nil : d.dict []
  dict_insert : ∀ {entries : List (String × Value)} (key : String) (value : Value),
    d.dict entries → d.dict (Entries.insert key value entries)
  dict_replace : ∀ {entries : List (String × Value)} (key : String) (value : Value),
    d.dict entries → d.dict (Entries.replace key value entries)
  native : ∀ {name : String}, d.body (.native name) → d.native name
  pop : ∀ {text : String} {path : Path}, d.instruction (.token text (.pop path)) → d.name path.name
  call : ∀ {text name : String} {functions : List (String × Body)} {body : Body},
    d.instruction (.token text (.call name)) → d.functions functions →
      Entries.find? name functions = some body → d.Calls body
  main : ∀ {program : Program} {functions : List (String × Body)}, d.Runs program →
    d.functions functions → Entries.find? Context.mainName functions = none →
      d.functions (Entries.insert Context.mainName (.program program) functions)
  invalid : ∀ {tree : Json} {fault : Fault}, d.instruction (.invalid tree fault) → d.fault fault
  fault : ∀ {fault : Fault}, ¬ fault.OfContext → d.fault fault
  /-- A context within the discipline is valid, or to be invalid is allowed. -/
  valid : ∀ {context : Context}, (∀ entry ∈ context.bindings, d.name entry.1) →
    d.functions context.functions → context.isValid = true ∨ ∀ fault, d.fault fault

variable {d}

/-! ## Values -/

theorem allows_scalar {value : Value} (simple : value.isContainer = false)
    (notFunction : value.type ≠ .function) : d.Allows value := by
  refine (Piece.all_scalar simple notFunction).mpr ?_
  cases value with
  | dict _ => cases simple
  | _ => trivial

theorem allows_array {items : List Value} :
    d.Allows (.array items) ↔ ∀ value ∈ items, d.Allows value :=
  Piece.all_array.trans (and_iff_right trivial)

theorem allows_dict {entries : List (String × Value)} :
    d.Allows (.dict entries) ↔ d.dict entries ∧ ∀ entry ∈ entries, d.Allows entry.2 :=
  Piece.all_dict

theorem allows_function {body : Body} :
    d.Allows (.function body) ↔ Piece.All d.ok (.body body) :=
  Piece.all_function.trans (and_iff_right trivial)

theorem allows_insert (lawful : d.Lawful) {entries : List (String × Value)} {value : Value}
    (allowed : d.Allows (.dict entries)) (key : String) (new : d.Allows value) :
    d.Allows (.dict (Entries.insert key value entries)) := by
  obtain ⟨ordered, each⟩ := allows_dict.mp allowed
  refine allows_dict.mpr ⟨lawful.dict_insert key value ordered, fun entry member => ?_⟩
  rcases Entries.mem_insert member with rfl | kept
  · exact new
  · exact each entry kept

theorem allows_replace (lawful : d.Lawful) {entries : List (String × Value)} {value : Value}
    (allowed : d.Allows (.dict entries)) (key : String) (new : d.Allows value) :
    d.Allows (.dict (Entries.replace key value entries)) := by
  obtain ⟨ordered, each⟩ := allows_dict.mp allowed
  refine allows_dict.mpr ⟨lawful.dict_replace key value ordered, fun entry member => ?_⟩
  rcases Entries.mem_replace member with rfl | kept
  · exact new
  · exact each entry kept

theorem allows_slot {container slot : Value} {index : Index} (allowed : d.Allows container)
    (found : container.slot? index = .ok (some slot)) : d.Allows slot :=
  allowed.part (.slot found)

theorem allows_store {items stored : List Value} {value : Value} {position : Nat}
    (allowed : ∀ item ∈ items, d.Allows item) (new : d.Allows value)
    (done : Slot.store items position value = .ok stored) : ∀ item ∈ stored, d.Allows item := by
  have null : d.Allows .null := allows_scalar rfl (by decide)
  unfold Slot.store at done
  split at done
  · cases done
    intro item member
    rcases List.mem_or_eq_of_mem_set member with kept | rfl
    · exact allowed item kept
    · exact new
  · split at done <;> cases done
    intro item member
    simp only [List.mem_append, List.mem_replicate, List.mem_singleton] at member
    rcases member with (kept | ⟨_, rfl⟩) | rfl
    · exact allowed item kept
    · exact null
    · exact new

theorem put_ends (lawful : d.Lawful) {value container : Value} (new : d.Allows value)
    (allowed : d.Allows container) (index : Index) :
    Work.Ends d.fault d.Allows (Slot.put container index value) := by
  cases stored : Slot.put container index value with
  | error fault => exact lawful.fault (Slot.put_ordinary stored).not_ofContext
  | ok written =>
    unfold Slot.put at stored
    split at stored
    · split at stored <;> cases stored
      rename_i done
      exact allows_array.mpr (allows_store (allows_array.mp allowed) new done)
    · cases stored
    · cases stored
      exact allows_insert lawful allowed _ new
    · cases stored

theorem allows_putBack (lawful : d.Lawful) {container slot : Value} (allowed : d.Allows container)
    (index : Index) (new : d.Allows slot) : d.Allows (Slot.putBack container index slot) := by
  unfold Slot.putBack
  split
  · refine allows_array.mpr fun item member => ?_
    rcases List.mem_or_eq_of_mem_set member with kept | rfl
    · exact allows_array.mp allowed item kept
    · exact new
  · exact allows_replace lawful allowed _ new
  · exact allowed

/-! ## The stack -/

/-- Every value of a stack is allowed. -/
def Stacks (d : Discipline) (stack : Stack) : Prop :=
  ∀ value ∈ stack, d.Allows value

theorem frugal_ensures {α : Type} (lawful : d.Lawful) {work : OnStack α} (frugal : work.Frugal) :
    Ensures d.Stacks d.fault (fun _ => True) work := by
  intro stack allowed
  refine ⟨fun value member => allowed value ((frugal.pops stack).subset member), ?_⟩
  exact (frugal.faults stack).mono (fun _ ordinary => lawful.fault ordinary.not_ofContext) fun _ => id

theorem pop_ensures (lawful : d.Lawful) : Ensures d.Stacks d.fault d.Allows Stack.pop := by
  intro stack allowed
  refine ⟨(frugal_ensures lawful .pop stack allowed).1, ?_⟩
  cases stack with
  | nil => exact lawful.fault nofun
  | cons value rest => exact allowed value List.mem_cons_self

/-- What a read finds, if it finds anything, is allowed. -/
def Finds (d : Discipline) (found : Option Value) : Prop :=
  ∀ value, found = some value → d.Allows value

theorem walk_ensures (lawful : d.Lawful) {current : Value} (allowed : d.Allows current)
    (path : List Step) : Ensures d.Stacks d.fault d.Finds (Slot.walk current path) := by
  induction path generalizing current with
  | nil => exact .pure fun _ same => Option.some.inj same ▸ allowed
  | cons step rest ih =>
    refine .bind (frugal_ensures lawful step.resolve_frugal) fun index _ => ?_
    split
    · rename_i failed
      exact .throw (lawful.fault (Value.slot?_ordinary failed).not_ofContext)
    · exact .pure nofun
    · rename_i slot found
      have inner : d.Allows slot := allows_slot allowed found
      split
      · exact .pure fun _ same => Option.some.inj same ▸ inner
      · split
        · rename_i failed
          exact .throw (lawful.fault (Value.enters_ordinary failed).not_ofContext)
        · exact ih inner
        · exact .pure fun _ same => Option.some.inj same ▸ inner

theorem read_ensures (lawful : d.Lawful) {container : Value} (allowed : d.Allows container)
    (path : List Step) : Ensures d.Stacks d.fault d.Finds (Slot.read container path) := by
  unfold Slot.read
  split
  · exact walk_ensures lawful allowed path
  · exact .throw (lawful.fault nofun)

theorem write_ensures (lawful : d.Lawful) {value container : Value} (new : d.Allows value)
    (allowed : d.Allows container) (path : List Step) :
    Ensures d.Stacks d.fault d.Allows (Slot.write value container path) := by
  induction path generalizing container with
  | nil => exact .pure new
  | cons step rest ih =>
    rw [Slot.write_step]
    refine .bind (frugal_ensures lawful step.resolve_frugal) fun index _ => ?_
    have stops : Ensures d.Stacks d.fault d.Allows
        (MonadExcept.ofExcept (Slot.put container index value)) :=
      .ofExcept (put_ends lawful new allowed index)
    split
    · rename_i failed
      exact .throw (lawful.fault (Value.slot?_ordinary failed).not_ofContext)
    · exact stops
    · rename_i slot found
      split
      · exact stops
      · split
        · rename_i failed
          exact .throw (lawful.fault (Value.enters_ordinary failed).not_ofContext)
        · refine .bind (ih (allows_slot allowed found)) fun written good => .pure ?_
          exact allows_putBack lawful allowed index good
        · exact stops

/-! ## Literals -/

section Bindings

variable (lawful : d.Lawful) {bindings : List (String × Value)}
  (bound : ∀ entry ∈ bindings, d.Allows entry.2)

include lawful bound

theorem resolvePush_ensures (path : Path) :
    Ensures d.Stacks d.fault d.Allows (path.resolvePush bindings) := by
  unfold Path.resolvePush
  split
  · exact .throw (lawful.fault nofun)
  · rename_i root found
    have allowed : d.Allows root := bound _ (Entries.mem_of_find? found)
    split
    · exact .pure allowed
    · split
      · rename_i failed
        exact .throw (lawful.fault (Path.steps_ordinary failed).not_ofContext)
      · refine .bind (read_ensures lawful allowed _) fun found finds => ?_
        split
        · exact .pure (finds _ rfl)
        · exact .throw (lawful.fault nofun)

theorem resolveElement_ensures (text : String) :
    Ensures d.Stacks d.fault d.Allows (resolveElement bindings text) := by
  unfold resolveElement
  split
  · exact resolvePush_ensures lawful bound _
  · exact .throw (lawful.fault nofun)

theorem constructElement_ensures {tree : Json}
    (constructs : Ensures d.Stacks d.fault d.Allows (construct bindings tree)) :
    Ensures d.Stacks d.fault d.Allows (constructElement bindings tree) := by
  cases tree with
  | string text => exact resolveElement_ensures lawful bound text
  | _ => exact constructs

omit bound in
theorem allows_ofList {pairs : List (String × Value)} (each : ∀ pair ∈ pairs, d.Allows pair.2) :
    d.Allows (.dict (Entries.ofList pairs)) := by
  refine Entries.ofList_induction (motive := fun entries => d.Allows (.dict entries)) ?_ ?_
  · exact allows_dict.mpr ⟨lawful.dict_nil, nofun⟩
  · intro pair member entries allowed
    exact allows_insert lawful allowed pair.1 (each pair member)

/-- A literal constructs an allowed value if everything inside it is allowed. -/
theorem construct_ensures {tree : Json} (allowed : Piece.All d.ok (.literal tree)) :
    Ensures d.Stacks d.fault d.Allows (construct bindings tree) := by
  induction tree using Json.literalInduction with
  | null | bool _ | integer _ | float _ _ | text _ =>
    exact .pure (allows_scalar rfl (by intro same; cases same))
  | string text => exact .throw (lawful.fault nofun)
  | program items notText _ =>
    rw [construct_program bindings notText]
    exact .pure (allows_function.mpr (allowed.part (.program notText)))
  | array items ih =>
    have elements : ∀ item ∈ items, Ensures d.Stacks d.fault d.Allows (constructElement bindings item) :=
      fun item member =>
        constructElement_ensures lawful bound (ih item member (allowed.part (.arrayElement member)))
    rw [construct_array]
    exact .bind (.mapM elements) fun values each => .pure (allows_array.mpr each)
  | dict entries ih =>
    have elements : ∀ item ∈ entries.map Prod.snd,
        Ensures d.Stacks d.fault d.Allows (constructElement bindings item) := by
      intro item member
      obtain ⟨entry, within, rfl⟩ := List.mem_map.mp member
      exact constructElement_ensures lawful bound (ih entry within (allowed.part (.dictElement within)))
    rw [construct_dict]
    refine .bind (.mapM elements) fun values each => .pure ?_
    exact allows_ofList lawful fun pair member => each pair.2 (List.of_mem_zip member).2
  | other entries notArray notDict =>
    rw [construct_other bindings notArray notDict]
    exact .throw (lawful.fault nofun)

end Bindings

end Discipline

end StackScript
