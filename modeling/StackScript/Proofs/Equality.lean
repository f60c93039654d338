/-
# StackScript.Proofs.Equality — equality as a partial equivalence

Values, functions and instructions compare part by part, and what they are made of
compares in ways of its own: doubles as IEEE numbers, literals as trees in which the
entries of an object have no order. Every one of these relations is symmetric and
transitive, and each is put together from the relations of the parts. `EquivalentAt`
therefore says the two of one element at a time, with one rule for every way to put
relations together, and an induction over the data does the rest.

Nothing but a NaN differs from itself, so a value is equal to itself unless it holds one.
-/
import StackScript.Proofs.Literal
import StackScript.Proofs.Number

namespace StackScript

set_option autoImplicit false

/-! ## Partial equivalences, one element at a time -/

/-- What a partial equivalence says of the element on the left. -/
structure EquivalentAt {α : Type} (related : α → α → Prop) (a : α) : Prop where
  symm : ∀ {b : α}, related a b → related b a
  trans : ∀ {b c : α}, related a b → related b c → related a c

namespace EquivalentAt

variable {α β : Type} {related : α → α → Prop}

/-- An element that is related to itself alone. -/
theorem alone {a : α} (only : ∀ b, related a b ↔ a = b) : EquivalentAt related a where
  symm {b} first := by
    obtain rfl := (only b).mp first
    exact first
  trans {b c} first second := by
    obtain rfl := (only b).mp first
    exact second

/-- Elements that are related as what they carry is. -/
theorem carried {inner : β → β → Prop} (wrap : β → α)
    (carries : ∀ x b, related (wrap x) b ↔ ∃ y, b = wrap y ∧ inner x y) {x : β}
    (inside : EquivalentAt inner x) : EquivalentAt related (wrap x) where
  symm {b} first := by
    obtain ⟨y, rfl, inward⟩ := (carries x b).mp first
    exact (carries y _).mpr ⟨x, rfl, inside.symm inward⟩
  trans {b c} first second := by
    obtain ⟨y, rfl, inward⟩ := (carries x b).mp first
    obtain ⟨z, rfl, onward⟩ := (carries y c).mp second
    exact (carries x _).mpr ⟨z, rfl, inside.trans inward onward⟩

theorem comap (view : β → α) (x : β) (seen : EquivalentAt related (view x)) :
    EquivalentAt (fun x y => related (view x) (view y)) x :=
  ⟨seen.symm, seen.trans⟩

theorem and {other : α → α → Prop} {a : α} (left : EquivalentAt related a)
    (right : EquivalentAt other a) : EquivalentAt (fun a b => related a b ∧ other a b) a :=
  ⟨fun first => ⟨left.symm first.1, right.symm first.2⟩,
    fun first second => ⟨left.trans first.1 second.1, right.trans first.2 second.2⟩⟩

theorem pointwise {ι : Type} {related : ι → α → α → Prop} {a : α}
    (each : ∀ i, EquivalentAt (related i) a) : EquivalentAt (fun a b => ∀ i, related i a b) a :=
  ⟨fun first i => (each i).symm (first i),
    fun first second i => (each i).trans (first i) (second i)⟩

theorem eq (a : α) : EquivalentAt (fun a b : α => a = b) a :=
  ⟨Eq.symm, Eq.trans⟩

theorem forall₂ {as : List α} (each : ∀ a ∈ as, EquivalentAt related a) :
    EquivalentAt (List.Forall₂ related) as where
  symm {bs} first := by
    induction first with
    | nil => exact .nil
    | cons first _ ih =>
      obtain ⟨here, others⟩ := List.forall_mem_cons.mp each
      exact .cons (here.symm first) (ih others)
  trans {bs cs} first second := by
    induction first generalizing cs with
    | nil => exact second
    | cons first _ ih =>
      obtain ⟨here, others⟩ := List.forall_mem_cons.mp each
      cases second with
      | cons second later => exact .cons (here.trans first second) (ih others later)

end EquivalentAt

/-- Lists that are compared item by item, in order. -/
theorem forall₂_of_compares {α : Type} {each : α → α → Bool} {all : List α → List α → Bool}
    (nil : all [] [] = true) (longer : ∀ a as, all (a :: as) [] = false)
    (shorter : ∀ b bs, all [] (b :: bs) = false)
    (cons : ∀ a as b bs, all (a :: as) (b :: bs) = (each a b && all as bs)) {as bs : List α} :
    all as bs = true ↔ List.Forall₂ (fun a b => each a b = true) as bs := by
  induction as generalizing bs with
  | nil => cases bs <;> simp [nil, shorter]
  | cons a as ih => cases bs <;> simp [longer, cons, ih]

/-! ## Numbers -/

namespace Number

theorem Parts.Equal.symm {a b : Parts} (equal : a.Equal b) : b.Equal a := by
  cases a <;> cases b <;> grind [Parts.Equal]

theorem Parts.Equal.trans {a b c : Parts} (first : a.Equal b) (second : b.Equal c) : a.Equal c := by
  cases a <;> cases b <;> cases c <;> grind [Parts.Equal]

theorem equivalentAt (x : Float) : EquivalentAt (fun x y : Float => (x == y) = true) x := by
  simp only [beq_iff]
  exact ⟨Parts.Equal.symm, Parts.Equal.trans⟩

/-- A double equals itself unless it is a NaN. -/
theorem beq_self_iff {x : Float} : (x == x) = true ↔ isNan x = false := by
  rw [beq_iff, isNan]
  cases parts x <;> simp [Parts.Equal]

end Number

/-! ## Literals -/

namespace Entries

variable {α : Type} {entries : List (String × α)}

/-- All values under a key, in order. -/
def under (key : String) (entries : List (String × α)) : List α :=
  entries.filterMap fun entry => if entry.1 = key then some entry.2 else none

theorem under_cons (key : String) (entry : String × α) :
    under key (entry :: entries) =
      if entry.1 = key then entry.2 :: under key entries else under key entries := by
  unfold under
  rw [List.filterMap_cons]
  split_ifs <;> rfl

theorem mem_of_mem_under {key : String} {value : α} (member : value ∈ under key entries) :
    (key, value) ∈ entries := by
  simpa [under] using member

theorem under_eq_find? {key : String} (distinct : (entries.map Prod.fst).Nodup) :
    under key entries = (find? key entries).toList := by
  induction entries with
  | nil => rfl
  | cons entry entries ih =>
    obtain ⟨other, value⟩ := entry
    rw [List.map_cons, List.nodup_cons] at distinct
    rw [under_cons, find?]
    split_ifs with here
    · have none : under key entries = [] := by
        refine List.eq_nil_iff_forall_not_mem.mpr fun later member => distinct.1 ?_
        exact here ▸ List.mem_map_of_mem (mem_of_mem_under member)
      rw [none]
      rfl
    · exact ih distinct.2

end Entries

namespace Json

open Entries (under under_cons)

abbrev Same (first second : Json) : Prop :=
  first.same second = true

/-- Taking an entry out leaves the others in order. -/
theorem under_takeEntry? {key : String} {entries rest : List (String × Json)} {value : Json}
    (taken : takeEntry? key entries = some (value, rest)) (other : String) :
    under other entries = under other ((key, value) :: rest) := by
  induction entries generalizing rest with
  | nil => cases taken
  | cons entry entries ih =>
    obtain ⟨name, held⟩ := entry
    unfold takeEntry? at taken
    split at taken
    · rename_i here
      cases taken
      rw [here]
    · rename_i elsewhere
      split at taken
      · rename_i found others later
        cases taken
        rw [under_cons, ih later, under_cons, under_cons, under_cons]
        by_cases same : name = other
        · have apart : key ≠ other := fun equal => elsewhere (same.trans equal.symm)
          simp [same, apart]
        · simp [same]
      · cases taken

theorem under_takeEntry?_none {key : String} {entries : List (String × Json)}
    (absent : takeEntry? key entries = none) : under key entries = [] := by
  induction entries with
  | nil => rfl
  | cons entry entries ih =>
    obtain ⟨name, held⟩ := entry
    unfold takeEntry? at absent
    split at absent
    · cases absent
    · rename_i elsewhere
      split at absent
      · cases absent
      · rename_i later
        rw [under_cons, if_neg elsewhere, ih later]

theorem sameItems_iff {items others : List Json} :
    sameItems items others = true ↔ List.Forall₂ Same items others :=
  forall₂_of_compares (by simp [sameItems]) (by simp [sameItems]) (by simp [sameItems])
    (by simp [sameItems])

/-- Entries are equal when under every key the same number of equal values stand in the
same order. -/
theorem sameEntries_iff {entries others : List (String × Json)} :
    sameEntries entries others = true ↔
      ∀ key, List.Forall₂ Same (under key entries) (under key others) := by
  induction entries generalizing others with
  | nil =>
    rw [sameEntries]
    cases others with
    | nil => simp [under]
    | cons entry others =>
      simp only [List.isEmpty_cons, Bool.false_eq_true, false_iff, not_forall]
      refine ⟨entry.1, fun paired => ?_⟩
      rw [under_cons, if_pos rfl] at paired
      cases paired
  | cons entry entries ih =>
    obtain ⟨name, first⟩ := entry
    rw [sameEntries]
    split
    · -- Taking out the match moves it to the front of its own key and leaves the other keys alone.
      rename_i second rest taken
      simp only [Bool.and_eq_true, ih, under_takeEntry? taken, under_cons]
      constructor
      · rintro ⟨equal, later⟩ key
        split_ifs
        · exact .cons equal (later key)
        · exact later key
      · intro paired
        have here := paired name
        simp only [if_true, List.forall₂_cons] at here
        refine ⟨here.1, fun key => ?_⟩
        by_cases same : name = key
        · exact same ▸ here.2
        · simpa [same] using paired key
    · rename_i absent
      simp only [Bool.false_eq_true, false_iff, not_forall]
      refine ⟨name, fun paired => ?_⟩
      rw [under_takeEntry?_none absent, under_cons, if_pos rfl] at paired
      cases paired

/-- Floats in a tree are finite, so a tree equals itself. -/
theorem same_self (tree : Json) : tree.same tree = true := by
  induction tree using Json.induction with
  | null => rfl
  | bool b => simp [same]
  | integer n => simp [same]
  | float x finite => simpa [same] using Number.beq_self finite
  | string text => simp [same]
  | array items ih =>
    rw [same, sameItems_iff, List.forall₂_same]
    exact ih
  | object entries ih =>
    rw [same, sameEntries_iff]
    intro key
    rw [List.forall₂_same]
    exact fun held member => ih (key, held) (Entries.mem_of_mem_under member)

theorem equivalentAt (tree : Json) : EquivalentAt Same tree := by
  induction tree using Json.induction with
  | null => exact .alone fun tree => by cases tree <;> simp [Same, same]
  | bool b => exact .alone fun tree => by cases tree <;> simp [Same, same]
  | integer n => exact .alone fun tree => by cases tree <;> simp [Same, same]
  | string text => exact .alone fun tree => by cases tree <;> simp [Same, same]
  | float x finite =>
    refine .carried (fun x : { x // Number.isFinite x = true } => Json.float x.1 x.2)
      (fun x tree => ?_) (.comap Subtype.val ⟨x, finite⟩ (Number.equivalentAt x))
    cases tree with
    | float y finite => simp [Same, same, finite]
    | _ => simp [Same, same]
  | array items ih =>
    refine .carried Json.array (fun items tree => ?_) (.forall₂ ih)
    cases tree <;> simp [Same, same, sameItems_iff]
  | object entries ih =>
    have each (key : String) : EquivalentAt (List.Forall₂ Same) (under key entries) :=
      .forall₂ fun held member => ih (key, held) (Entries.mem_of_mem_under member)
    refine .carried Json.object (fun entries tree => ?_) 
      (.pointwise fun key => .comap (under key) entries (each key))
    cases tree <;> simp [Same, same, sameEntries_iff]

theorem same_object_iff {entries others : List (String × Json)} :
    Same (.object entries) (.object others) ↔
      ∀ key, List.Forall₂ Same (under key entries) (under key others) := by
  rw [Same, same, sameEntries_iff]

/-- Objects with distinct keys are equal when they have equal values under the same keys. -/
theorem same_object_iff_find? {entries others : List (String × Json)}
    (distinct : (entries.map Prod.fst).Nodup) (distinct' : (others.map Prod.fst).Nodup) :
    Same (.object entries) (.object others) ↔
      ∀ key, Option.Rel Same (Entries.find? key entries) (Entries.find? key others) := by
  rw [same_object_iff]
  refine forall_congr' fun key => ?_
  rw [Entries.under_eq_find? distinct, Entries.under_eq_find? distinct']
  cases Entries.find? key entries <;> cases Entries.find? key others <;> simp

/-- The order of entries under different keys makes no difference. -/
theorem same_object_of_perm {entries others : List (String × Json)}
    (distinct : (entries.map Prod.fst).Nodup) (reordered : entries.Perm others) :
    Same (.object entries) (.object others) := by
  rw [same_object_iff]
  intro key
  have values : (under key entries).Perm (under key others) := reordered.filterMap _
  have equal : under key others = under key entries := by
    rw [Entries.under_eq_find? distinct] at values ⊢
    generalize Entries.find? key entries = found at values ⊢
    cases found with
    | none => exact List.nil_perm.mp values
    | some held => exact (List.singleton_perm.mp values).symm
  rw [equal, List.forall₂_same]
  exact fun held _ => same_self held

end Json

/-! ## Values -/

/-- A property of all values, from the values inside a value to the value: its items, its
entries, and what the instructions of its program hold. -/
theorem Value.induction {motive : Value → Prop}
    (null : motive .null) (boolean : ∀ b, motive (.boolean b)) (number : ∀ x, motive (.number x))
    (text : ∀ text, motive (.text text))
    (array : ∀ items, (∀ item ∈ items, motive item) → motive (.array items))
    (dict : ∀ entries, (∀ entry ∈ entries, motive entry.2) → motive (.dict entries))
    (native : ∀ name, motive (.function (.native name)))
    (program : ∀ instructions, (∀ held, .value held ∈ instructions → motive held) →
      motive (.function (.program instructions))) : ∀ value, motive value
  | .null => null
  | .boolean b => boolean b
  | .number x => number x
  | .text value => text value
  | .array items => array items fun item _ =>
      Value.induction null boolean number text array dict native program item
  | .dict entries => dict entries fun entry _ =>
      Value.induction null boolean number text array dict native program entry.2
  | .function (.native name) => native name
  | .function (.program instructions) => program instructions fun held _ =>
      Value.induction null boolean number text array dict native program held
termination_by value => sizeOf value
decreasing_by
  · decreasing_tactic
  · rename_i member
    have smaller := List.sizeOf_lt_of_mem member
    obtain ⟨key, value⟩ := entry
    simp only [Prod.mk.sizeOf_spec, Value.dict.sizeOf_spec] at smaller ⊢
    omega
  · rename_i member
    have smaller := List.sizeOf_lt_of_mem member
    simp only [Instruction.value.sizeOf_spec, Value.function.sizeOf_spec, Body.program.sizeOf_spec]
      at smaller ⊢
    omega

/-- The value holds the number: as an item, an entry or a value that an instruction of its
program holds, at any depth. -/
inductive Value.Holds (x : Float) : Value → Prop
  | number : Holds x (.number x)
  | item {items : List Value} {item : Value} (member : item ∈ items) (holds : Holds x item) :
      Holds x (.array items)
  | entry {entries : List (String × Value)} {entry : String × Value} (member : entry ∈ entries)
      (holds : Holds x entry.2) : Holds x (.dict entries)
  | instruction {program : Program} {held : Value} (member : .value held ∈ program)
      (holds : Holds x held) : Holds x (.function (.program program))

abbrev Value.Same (first second : Value) : Prop :=
  first.same second = true

abbrev Instruction.Same (first second : Instruction) : Prop :=
  first.same second = true

theorem Value.sameItems_iff {items others : List Value} :
    sameItems items others = true ↔ List.Forall₂ Same items others :=
  forall₂_of_compares (by simp [sameItems]) (by simp [sameItems]) (by simp [sameItems])
    (by simp [sameItems])

theorem Value.sameEntries_iff {entries others : List (String × Value)} :
    sameEntries entries others = true ↔
      List.Forall₂ (fun a b => a.1 = b.1 ∧ Same a.2 b.2) entries others := by
  have compares : sameEntries entries others = true ↔
      List.Forall₂ (fun a b => (a.1 == b.1 && a.2.same b.2) = true) entries others :=
    forall₂_of_compares (by simp [sameEntries]) (by simp [sameEntries]) (by simp [sameEntries])
      (by simp [sameEntries])
  simpa using compares

theorem Instruction.sameAll_iff {program other : Program} :
    sameAll program other = true ↔ List.Forall₂ Same program other :=
  forall₂_of_compares (by simp [sameAll]) (by simp [sameAll]) (by simp [sameAll])
    (by simp [sameAll])

/-- Of all instructions, only those that push a value are compared by one. -/
theorem Instruction.equivalentAt {instruction : Instruction}
    (each : ∀ held, instruction = .value held → EquivalentAt Value.Same held) :
    EquivalentAt Same instruction := by
  cases instruction with
  | value held =>
    refine .carried Instruction.value (fun held other => ?_) (each held rfl)
    cases other <;> simp [Same, same]
  | literal tree =>
    refine .carried Instruction.literal (fun tree other => ?_) (Json.equivalentAt tree)
    cases other <;> simp [Same, same]
  | token text read => exact .alone fun other => by cases other <;> simp [Same, same]
  | invalid tree fault =>
    have trees := EquivalentAt.comap Prod.fst (tree, fault) (Json.equivalentAt tree)
    have faults := EquivalentAt.comap Prod.snd (tree, fault) (.eq fault)
    refine .carried (fun of : Json × Fault => Instruction.invalid of.1 of.2) (fun of other => ?_)
      (trees.and faults)
    cases other with
    | invalid tree' fault' =>
      simp only [Same, same, Bool.and_eq_true, beq_iff_eq]
      constructor
      · intro equal
        exact ⟨(tree', fault'), rfl, equal⟩
      · rintro ⟨_, ⟨⟩, equal⟩
        exact equal
    | _ => simp [Same, same]

theorem Value.equivalentAt (value : Value) : EquivalentAt Same value := by
  induction value using Value.induction with
  | null => exact .alone fun other => by cases other <;> simp [Same, same]
  | boolean b => exact .alone fun other => by cases other <;> simp [Same, same]
  | text text => exact .alone fun other => by cases other <;> simp [Same, same]
  | number x =>
    refine .carried Value.number (fun x other => ?_) (Number.equivalentAt x)
    cases other <;> simp [Same, same]
  | array items ih =>
    refine .carried Value.array (fun items other => ?_) (.forall₂ ih)
    cases other <;> simp [Same, same, sameItems_iff]
  | dict entries ih =>
    have each : ∀ entry ∈ entries,
        EquivalentAt (fun a b : String × Value => a.1 = b.1 ∧ Same a.2 b.2) entry := by
      intro entry member
      exact .and (.comap Prod.fst entry (.eq entry.1)) (.comap Prod.snd entry (ih entry member))
    refine .carried Value.dict (fun entries other => ?_) (.forall₂ each)
    cases other <;> simp [Same, same, sameEntries_iff]
  | native name =>
    refine .alone fun other => ?_
    rcases other with _ | _ | _ | _ | _ | _ | (_ | _) <;> simp [Same, same, Body.same]
  | program program ih =>
    have each : ∀ instruction ∈ program, EquivalentAt Instruction.Same instruction := by
      intro instruction member
      exact Instruction.equivalentAt fun held same => ih held (same ▸ member)
    refine .carried (fun program => Value.function (.program program)) (fun program other => ?_)
      (.forall₂ each)
    rcases other with _ | _ | _ | _ | _ | _ | (_ | _) <;>
      simp [Same, same, Body.same, Instruction.sameAll_iff]

/-! ## Values that equal themselves -/

theorem Instruction.same_self_iff {instruction : Instruction} :
    Same instruction instruction ↔ ∀ held, instruction = .value held → held.Same held := by
  cases instruction <;> simp [Same, same, Json.same_self]

namespace Value

theorem holds_array {x : Float} {items : List Value} :
    Holds x (.array items) ↔ ∃ item ∈ items, Holds x item := by
  constructor
  · rintro (_ | ⟨member, holds⟩)
    exact ⟨_, member, holds⟩
  · rintro ⟨item, member, holds⟩
    exact .item member holds

theorem holds_dict {x : Float} {entries : List (String × Value)} :
    Holds x (.dict entries) ↔ ∃ entry ∈ entries, Holds x entry.2 := by
  constructor
  · rintro (_ | _ | ⟨member, holds⟩)
    exact ⟨_, member, holds⟩
  · rintro ⟨entry, member, holds⟩
    exact .entry member holds

theorem holds_program {x : Float} {program : Program} :
    Holds x (.function (.program program)) ↔ ∃ held, .value held ∈ program ∧ Holds x held := by
  constructor
  · rintro (_ | _ | _ | ⟨member, holds⟩)
    exact ⟨_, member, holds⟩
  · rintro ⟨held, member, holds⟩
    exact .instruction member holds

/-- The parts of a value all equal themselves when none of them holds a NaN. -/
theorem same_parts_iff {ι : Type} {part : ι → Prop} (held : ι → Value)
    (each : ∀ i, part i →
      (Same (held i) (held i) ↔ ∀ x, (held i).Holds x → Number.isNan x = false)) :
    (∀ i, part i → Same (held i) (held i)) ↔
      ∀ x, (∃ i, part i ∧ (held i).Holds x) → Number.isNan x = false := by
  constructor
  · rintro all x ⟨i, within, holds⟩
    exact (each i within).mp (all i within) x holds
  · intro none i within
    exact (each i within).mpr fun x holds => none x ⟨i, within, holds⟩

/-- A value equals itself unless it holds a NaN. -/
theorem same_self_iff (value : Value) :
    Same value value ↔ ∀ x, value.Holds x → Number.isNan x = false := by
  induction value using Value.induction with
  | null | boolean _ | text _ =>
    simp only [Same, same, beq_self_eq_true, true_iff]
    intro x holds
    cases holds
  | native name =>
    simp only [Same, same, Body.same, beq_self_eq_true, true_iff]
    intro x holds
    cases holds
  | number x =>
    rw [Same, same, Number.beq_self_iff]
    constructor
    · rintro notNan _ ⟨⟩
      exact notNan
    · exact fun each => each x .number
  | array items ih =>
    rw [Same, same, sameItems_iff, List.forall₂_same]
    simpa only [holds_array, id_eq] using same_parts_iff id ih
  | dict entries ih =>
    rw [Same, same, sameEntries_iff, List.forall₂_same]
    simpa only [holds_dict, true_and] using same_parts_iff Prod.snd ih
  | program program ih =>
    rw [Same, same, Body.same, Instruction.sameAll_iff, List.forall₂_same]
    have parts : (∀ instruction ∈ program, instruction.Same instruction) ↔
        ∀ held, .value held ∈ program → Same held held := by
      simp only [Instruction.same_self_iff]
      exact ⟨fun all held member => all _ member held rfl,
        fun all _ member held same => all held (same ▸ member)⟩
    rw [parts]
    simpa only [holds_program, id_eq] using same_parts_iff id ih

/-- **Equality is a partial equivalence that fails only on NaN.** Equality of values is
symmetric and transitive, and a value equals itself exactly when no number it holds, at any
depth and in the programs it holds as well, is a NaN. Programs are equal instruction by
instruction and natives by name; literals are equal as trees, objects with distinct keys in
whatever order their entries stand. -/
theorem beq_partialEquivalence :
    (∀ a b : Value, a == b → b == a) ∧
    (∀ a b c : Value, a == b → b == c → a == c) ∧
    (∀ a : Value, a == a ↔ ∀ x, a.Holds x → Number.isNan x = false) ∧
    (∀ p q : Program, Value.function (.program p) == .function (.program q) ↔
      List.Forall₂ (fun i j => i == j) p q) ∧
    (∀ m n : String, Value.function (.native m) == .function (.native n) ↔ m = n) ∧
    (∀ (p : Program) (n : String), ¬ (Value.function (.program p) == .function (.native n))) ∧
    (∀ s t : Json, Instruction.literal s == .literal t ↔ s == t) ∧
    (∀ (s t : Json) (f g : Fault), Instruction.invalid s f == .invalid t g ↔ s == t ∧ f = g) ∧
    (∀ as bs : List (String × Json), (as.map Prod.fst).Nodup → (bs.map Prod.fst).Nodup →
      (Json.object as == .object bs ↔
        ∀ key, Option.Rel (fun s t => s == t) (Entries.find? key as) (Entries.find? key bs))) ∧
    (∀ as bs : List (String × Json), (as.map Prod.fst).Nodup → as.Perm bs →
      Json.object as == .object bs) := by
  refine ⟨fun a b => (equivalentAt a).symm, fun a b c => (equivalentAt a).trans, same_self_iff,
    fun p q => ?_, fun m n => ?_, fun p n => ?_, fun s t => ?_, fun s t f g => ?_,
    fun as bs => Json.same_object_iff_find?, fun as bs => Json.same_object_of_perm⟩
  · show Same _ _ ↔ List.Forall₂ Instruction.Same p q
    rw [Same, same, Body.same, Instruction.sameAll_iff]
  · show Same _ _ ↔ _
    simp [Same, same, Body.same]
  · show ¬ Same _ _
    simp [Same, same, Body.same]
  · show Instruction.Same _ _ ↔ Json.Same s t
    rw [Instruction.Same, Instruction.same]
  · show Instruction.Same _ _ ↔ Json.Same s t ∧ f = g
    simp [Instruction.Same, Instruction.same]

/-- Entries in another order make an equal object, and a NaN in an array a value that differs
from itself. -/
theorem beq_partialEquivalence_order :
    let entries : List (String × Json) := [("a", .null), ("b", .bool true)]
    let others : List (String × Json) := [("b", .bool true), ("a", .null)]
    let values : Value := .array [.null, .number Number.nan]
    ((entries.map Prod.fst).Nodup ∧ entries.Perm others ∧ Json.object entries == .object others) ∧
      values.Holds Number.nan ∧ ¬ (values == values) := by
  intro entries others values
  obtain ⟨_, _, self, _, _, _, _, _, _, order⟩ := beq_partialEquivalence
  have distinct : (entries.map Prod.fst).Nodup := by decide
  have reordered : entries.Perm others := .swap _ _ _
  have holds : values.Holds Number.nan := .item (.tail _ (.head _)) .number
  have nan : Number.isNan Number.nan = true := by decide +kernel
  refine ⟨⟨distinct, reordered, order _ _ distinct reordered⟩, holds, fun equal => ?_⟩
  have notNan := (self values).mp equal Number.nan holds
  rw [nan] at notNan
  cases notNan

end Value

end StackScript
