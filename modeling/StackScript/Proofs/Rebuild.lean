/-
# StackScript.Proofs.Rebuild — values and the literals that rebuild them

`Value.toLiteral` writes a value as a literal, and a program that holds the literal
gets an equal value back. Two readers are involved. Elements of containers are
constructed when the literal is reached; programs are read beforehand, instruction
by instruction, and `Instruction.reread_same` says that writing and reading an
instruction again gives an equal one. What stands in the way, a native, a program
of one string, a number that is not finite, does not occur in the values of a
session or is excluded (`Session.values_rebuild`).
-/
import StackScript.Proofs.Equality
import StackScript.Proofs.Readings
import StackScript.Proofs.Rounding
import StackScript.Proofs.Session

namespace StackScript

set_option autoImplicit false

/-! ## Numbers -/

/-- A number that is finite, if the piece is a number at all. -/
def Piece.Finite : Piece → Prop
  | .value (.number x) => Number.isFinite x = true
  | _ => True

/-- A finite number is written as a tree that stands for an equal number, for both
readers. -/
theorem Json.ofNumber_denotes {x : Float} (finite : Number.isFinite x = true) :
    ∃ y, (y == x) = true ∧ (∀ text, Json.ofNumber x ≠ .string text) ∧
      Instruction.ofLiteral (Json.ofNumber x) = .value (.number y) ∧
      ∀ bindings, construct bindings (Json.ofNumber x) = pure (.number y) := by
  unfold Json.ofNumber
  split
  · rename_i n printed
    refine ⟨Number.ofInt n, Number.ofInt_beq (Number.printedInteger?_spec printed).1, ?_,
      Instruction.ofLiteral_integer n, fun bindings => construct_integer bindings n⟩
    intro text same
    cases same
  · rw [dif_pos finite]
    refine ⟨x, Number.beq_self finite, ?_, Instruction.ofLiteral_float x finite,
      fun bindings => construct_float bindings x finite⟩
    intro text same
    cases same

/-! ## Instructions -/

theorem Instruction.ofToken_toLiteral (text : String) :
    (Instruction.ofToken text).toLiteral = .string text := by
  unfold Instruction.ofToken
  split <;> simp [Instruction.toLiteral]

theorem Instruction.ofToken_same (text : String) :
    (Instruction.ofToken text).same (Instruction.ofToken text) = true := by
  unfold Instruction.ofToken
  split <;> simp [Instruction.same, Json.same_self]

/-- Only what was read from a string is written as one. -/
theorem Instruction.ofLiteral_toLiteral_string {tree : Json} {text : String}
    (written : (Instruction.ofLiteral tree).toLiteral = .string text) : tree = .string text := by
  rcases Instruction.ofLiteral_cases tree with
    ⟨token, rfl, same⟩ | ⟨held, simple, notFunction, same⟩ | ⟨items, _, _, same⟩ | same | same
  · rwa [same, Instruction.ofToken_toLiteral] at written
  · rw [same, Instruction.toLiteral] at written
    cases held with
    | number x =>
      simp only [Value.toLiteral, Json.ofNumber] at written
      split at written
      · cases written
      · split at written <;> cases written
    | array _ | dict _ => cases simple
    | function _ => exact absurd rfl notFunction
    | _ => simp [Value.toLiteral] at written
  · rw [same] at written
    simp [Instruction.toLiteral, Value.toLiteral, Body.toLiteral] at written
  · rwa [same, Instruction.toLiteral] at written
  · rwa [same, Instruction.unknown, Instruction.toLiteral] at written

theorem Instruction.sameAll_map {items : List Json} {first second : Json → Instruction}
    (each : ∀ item ∈ items, (first item).same (second item) = true) :
    Instruction.sameAll (items.map first) (items.map second) = true := by
  induction items with
  | nil => simp [Instruction.sameAll]
  | cons item items ih =>
    obtain ⟨same, others⟩ := List.forall_mem_cons.mp each
    simp [Instruction.sameAll, same, ih others]

/-- What is written of a program is a program again. -/
theorem Program.ofItems_toLiteral_notText {items : List Json} (notText : ∀ text, items ≠ [.string text]) :
    ∀ text, (Program.ofItems items).map Instruction.toLiteral ≠ [.string text] := by
  intro text written
  rw [Program.ofItems_eq, List.map_map] at written
  cases items with
  | nil => cases written
  | cons tree rest =>
    obtain ⟨first, last⟩ := List.cons.inj written
    have empty : rest = [] := List.map_eq_nil_iff.mp last
    exact notText text (by rw [Instruction.ofLiteral_toLiteral_string first, empty])

theorem Body.program_toLiteral (program : Program) :
    (Body.program program).toLiteral = .array (program.map Instruction.toLiteral) := by
  simp [Body.toLiteral, Instruction.literalsOnto_eq]

theorem Instruction.reread_number {x : Float} (finite : Number.isFinite x = true) :
    (Instruction.ofLiteral (Instruction.value (.number x)).toLiteral).same (.value (.number x)) =
      true := by
  obtain ⟨y, equal, _, reads, _⟩ := Json.ofNumber_denotes finite
  rw [Instruction.toLiteral, Value.toLiteral, reads]
  simpa [Instruction.same, Value.same] using equal

/-- Writing an instruction and reading it again gives an equal one, where the integers of
its programs stand for finite numbers. -/
theorem Instruction.reread_same_of (Bounded : Json → Prop)
    (number : ∀ n, Bounded (.integer n) → Number.isFinite (Number.ofInt n) = true)
    (part : ∀ items, (∀ text, items ≠ [.string text]) → Bounded (.array items) →
      ∀ item ∈ items, Bounded item)
    {tree : Json} (bounded : Bounded tree) :
    (Instruction.ofLiteral (Instruction.ofLiteral tree).toLiteral).same
      (Instruction.ofLiteral tree) = true := by
  induction tree using Json.induction with
  | null => simp [Instruction.toLiteral, Instruction.same, Json.same_self]
  | bool b =>
    simp [Instruction.toLiteral, Value.toLiteral, Instruction.same, Value.same]
  | integer n =>
    rw [Instruction.ofLiteral_integer]
    exact Instruction.reread_number (number n bounded)
  | float x finite =>
    rw [Instruction.ofLiteral_float]
    exact Instruction.reread_number finite
  | string text =>
    rw [Instruction.ofLiteral_string, Instruction.ofToken_toLiteral, Instruction.ofLiteral_string]
    exact Instruction.ofToken_same text
  | array items ih =>
    by_cases isText : ∃ text, items = [.string text]
    · obtain ⟨text, rfl⟩ := isText
      simp [Instruction.toLiteral, Instruction.same, Json.same_self]
    · have notText : ∀ text, items ≠ [.string text] := fun text same => isText ⟨text, same⟩
      have rewritten := Program.ofItems_toLiteral_notText notText
      rw [Instruction.ofLiteral_program notText, Instruction.toLiteral, Value.toLiteral,
        Body.program_toLiteral, Instruction.ofLiteral_program rewritten]
      simp only [Program.ofItems_eq, List.map_map, Instruction.same, Value.same, Body.same]
      refine Instruction.sameAll_map fun item member => ?_
      exact ih item member (part items notText bounded item member)
  | object entries _ =>
    by_cases structured : (Json.object entries).shape.isStructured = true
    · simp [Instruction.ofLiteral_object, structured, Instruction.toLiteral, Instruction.same, Json.same_self]
    · simp [Instruction.ofLiteral_object, structured, Instruction.unknown, Instruction.toLiteral,
        Instruction.same, Json.same_self]

/-- Writing an instruction and reading it again gives an equal one. -/
theorem Instruction.reread_same {tree : Json}
    (finite : Piece.All Piece.Finite (.instruction (.ofLiteral tree))) :
    (Instruction.ofLiteral (Instruction.ofLiteral tree).toLiteral).same
      (Instruction.ofLiteral tree) = true := by
  refine Instruction.reread_same_of
    (fun tree => Piece.All Piece.Finite (.instruction (.ofLiteral tree))) ?_ ?_ finite
  · intro n finite
    rw [Instruction.ofLiteral_integer] at finite
    exact (Piece.all_held.mp finite).2.self
  · intro items notText finite item member
    rw [Instruction.ofLiteral_program notText] at finite
    have each := (Piece.all_program.mp (Piece.all_function.mp (Piece.all_held.mp finite).2).2).2
    rw [Program.ofItems_eq] at each
    exact each _ (List.mem_map_of_mem member)

/-! ## Values -/

/-- The literal of a value constructs an equal one, whatever is bound. -/
structure Value.RebuiltAs (value rebuilt : Value) : Prop where
  notString : ∀ text, value.toLiteral ≠ .string text
  constructs : ∀ bindings, construct bindings value.toLiteral = pure rebuilt
  same : rebuilt.same value = true

namespace Value

theorem RebuiltAs.element {value rebuilt : Value} (built : value.RebuiltAs rebuilt)
    (bindings : List (String × Value)) :
    constructElement bindings value.toLiteral = pure rebuilt := by
  have constructs := built.constructs bindings
  unfold constructElement
  split
  · rename_i text written
    exact absurd written (built.notString text)
  · exact constructs

theorem rebuilt_items {items : List Value} (each : ∀ item ∈ items, ∃ rebuilt, item.RebuiltAs rebuilt) :
    ∃ values, (∀ bindings, (items.map toLiteral).mapM (constructElement bindings) = pure values) ∧
      sameItems values items = true := by
  induction items with
  | nil => exact ⟨[], fun _ => rfl, by simp [sameItems]⟩
  | cons item items ih =>
    obtain ⟨⟨first, built⟩, others⟩ := List.forall_mem_cons.mp each
    obtain ⟨values, constructs, same⟩ := ih others
    refine ⟨first :: values, fun bindings => ?_, by simp [sameItems, built.same, same]⟩
    rw [List.map_cons, List.mapM_cons, built.element, constructs]
    rfl

/-- Equal values under the same keys are equal entries. -/
theorem sameEntries_zip {entries : List (String × Value)} {values : List Value}
    (same : sameItems values (entries.map Prod.snd) = true) :
    sameEntries ((entries.map Prod.fst).zip values) entries = true ∧
      entries.length ≤ values.length := by
  induction entries generalizing values with
  | nil => simp [sameEntries]
  | cons entry entries ih =>
    cases values with
    | nil => simp [sameItems] at same
    | cons value values =>
      obtain ⟨key, held⟩ := entry
      simp only [List.map_cons, sameItems, Bool.and_eq_true] at same
      obtain ⟨later, length⟩ := ih same.2
      simp [sameEntries, same.1, later, length]

end Value

/-- A function that its literal rebuilds: a program that was read from literals, and
not from a string alone. -/
structure Body.Literate (body : Body) : Prop where
  read : ∃ items, body = .program (Program.ofItems items)
  notBare : ∀ text, body ≠ .program [.ofToken text]

/-- No function inside is a native or a program of one string, all were read from
literals, and the dicts inside are in order. -/
def Value.Rebuildable (value : Value) : Prop :=
  (∀ body, Piece.Inside (.body body) (.value value) → body.Literate) ∧ value.Ordered

/-- All numbers inside are finite. -/
def Value.Finite (value : Value) : Prop :=
  Piece.All Piece.Finite (.value value)

namespace Value

theorem Rebuildable.item {items : List Value} {item : Value} (rebuildable : Rebuildable (.array items))
    (member : item ∈ items) : item.Rebuildable :=
  ⟨fun body inside => rebuildable.1 body (inside.tail (.item member)), rebuildable.2.part (.item member)⟩

theorem Rebuildable.entry {entries : List (String × Value)} {entry : String × Value}
    (rebuildable : Rebuildable (.dict entries)) (member : entry ∈ entries) : entry.2.Rebuildable :=
  ⟨fun body inside => rebuildable.1 body (inside.tail (.entry member)), rebuildable.2.part (.entry member)⟩

theorem rebuilt_function {body : Body} (literate : body.Literate)
    (finite : Piece.All Piece.Finite (.body body)) :
    ∃ rebuilt, (Value.function body).RebuiltAs rebuilt := by
  obtain ⟨items, rfl⟩ := literate.read
  have notText : ∀ text, items ≠ [.string text] := by
    rintro text rfl
    exact literate.notBare text (by simp [Program.ofItems_eq])
  have rewritten := Program.ofItems_toLiteral_notText notText
  have each := (Piece.all_program.mp finite).2
  have written : (Value.function (.program (Program.ofItems items))).toLiteral =
      .array ((Program.ofItems items).map Instruction.toLiteral) := by
    rw [toLiteral, Body.program_toLiteral]
  refine ⟨.function (.program (Program.ofItems ((Program.ofItems items).map Instruction.toLiteral))),
    by simp [written], fun bindings => ?_, ?_⟩
  · rw [written, construct_program bindings rewritten]
  · simp only [same, Body.same]
    simp only [Program.ofItems_eq, List.map_map] at each ⊢
    refine Instruction.sameAll_map fun item member => ?_
    exact Instruction.reread_same (each _ (List.mem_map_of_mem member))

/-- A rebuildable value with finite numbers is constructed from its literal. -/
theorem rebuilds {value : Value} (rebuildable : value.Rebuildable) (finite : value.Finite) :
    ∃ rebuilt, value.RebuiltAs rebuilt := by
  induction value using Value.induction with
  | null => exact ⟨.null, by simp [toLiteral], by simp [toLiteral], by simp [same]⟩
  | boolean b => exact ⟨.boolean b, by simp [toLiteral], by simp [toLiteral], by simp [same]⟩
  | text text => exact ⟨.text text, by simp [toLiteral], by simp [toLiteral], by simp [same]⟩
  | number x =>
    obtain ⟨y, equal, notString, _, constructs⟩ := Json.ofNumber_denotes finite.self
    refine ⟨.number y, ?_, ?_, by simpa [same] using equal⟩
    · simpa only [toLiteral] using notString
    · simpa only [toLiteral] using constructs
  | array items ih =>
    have each : ∀ item ∈ items, ∃ rebuilt, item.RebuiltAs rebuilt := fun item member =>
      ih item member (rebuildable.item member) (finite.part (.item member))
    obtain ⟨values, constructs, same⟩ := rebuilt_items each
    refine ⟨.array values, by simp [toLiteral], fun bindings => ?_, by simpa [Value.same] using same⟩
    rw [toLiteral, literalsOnto_eq, construct_array, List.reverse_nil, List.nil_append, constructs]
    rfl
  | dict entries ih =>
    have each : ∀ item ∈ entries.map Prod.snd, ∃ rebuilt, item.RebuiltAs rebuilt := by
      intro item member
      obtain ⟨entry, within, rfl⟩ := List.mem_map.mp member
      exact ih entry within (rebuildable.entry within) (finite.part (.entry within))
    obtain ⟨values, constructs, same⟩ := rebuilt_items each
    obtain ⟨equal, length⟩ := sameEntries_zip same
    have keys : ((entries.map Prod.fst).zip values).map Prod.fst = entries.map Prod.fst :=
      List.map_fst_zip (by simpa using length)
    have ascending : Entries.Ascending ((entries.map Prod.fst).zip values) := by
      rw [Entries.ascending_iff, keys, ← Entries.ascending_iff]
      exact rebuildable.2.ascending
    refine ⟨.dict ((entries.map Prod.fst).zip values), by simp [toLiteral], fun bindings => ?_,
      by simpa [Value.same] using equal⟩
    have literals : ((entries.map fun entry => (entry.1, entry.2.toLiteral)).map Prod.snd) =
        (entries.map Prod.snd).map toLiteral := by simp
    have names : ((entries.map fun entry => (entry.1, entry.2.toLiteral)).map Prod.fst) =
        entries.map Prod.fst := by simp
    rw [toLiteral, literalEntriesOnto_eq, construct_dict, List.reverse_nil, List.nil_append, literals,
      names, constructs, pure_bind, Entries.ofList_ascending ascending]
  | native _ | program _ _ =>
    exact rebuilt_function (rebuildable.1 _ (.single .body)) (finite.part .body)

end Value

/-! ## Sessions -/

namespace Session

variable {σ : Type} [Host σ]

theorem rebuildable_of_allows {value : Value} (allowed : Discipline.session.Allows value) :
    value.Rebuildable := by
  refine ⟨fun body inside => ?_, fun piece inside => ?_⟩
  · obtain ⟨items, rfl, notText⟩ := allowed (.body body) inside
    refine ⟨⟨items, rfl⟩, fun text same => ?_⟩
    have written := congrArg Body.toLiteral same
    rw [Body.program_toLiteral, Body.program_toLiteral] at written
    refine Program.ofItems_toLiteral_notText notText text ?_
    simpa [Instruction.ofToken_toLiteral] using written
  · have kept := allowed piece inside
    unfold Piece.Ascends
    split
    · exact kept
    · trivial

/-- **A literal rebuilds every value of a session.** No value on the stack or in a
variable has a native or a program of one string inside, and its programs were read
from literals. Every such value whose numbers are finite is equal to the one that its
literal pushes, and nothing else changes. -/
theorem values_rebuild (limit : Nat) (tracing : Bool) (host : σ) (sources : List String) :
    let started : Session σ := start { natives := Native.standard, limit, tracing } host
    let context := (started.submitAll sources).2.machine.context
    (∀ value, value ∈ context.stack ++ context.bindings.map Prod.snd → value.Rebuildable) ∧
      ∀ value : Value, value.Rebuildable → value.Finite →
        ∀ (settings : Settings σ) (call : Program → Action σ Unit) (machine : Machine σ),
          ∃ rebuilt, rebuilt.same value = true ∧
            (Machine.execute settings call (.ofLiteral value.toLiteral)).run machine =
              (.ok .next, { machine with context :=
                { machine.context with stack := rebuilt :: machine.context.stack } }) := by
  intro started context
  obtain ⟨sound, _⟩ := submitAll_sound (start_sound limit tracing host) sources
  refine ⟨fun value member => rebuildable_of_allows ?_,
    fun value rebuildable finite settings call machine => ?_⟩
  · rcases List.mem_append.mp member with stacked | bound
    · exact sound.context.stack value stacked
    · obtain ⟨entry, within, rfl⟩ := List.mem_map.mp bound
      exact sound.context.bindings entry within
  · obtain ⟨rebuilt, built⟩ := Value.rebuilds rebuildable finite
    refine ⟨rebuilt, built.same, ?_⟩
    rw [Machine.execute_ofLiteral settings call built.notString]
    exact Machine.execute_literal settings call machine (built.constructs _)

/-- A text and a dict with a program, inside an array. -/
theorem values_rebuild_nested :
    let program : Program := .ofItems [.integer 1, .string "+"]
    let value : Value := .array [.text "a", .dict [("k", .function (.program program))]]
    let machine : Machine Transcript := { host := {} }
    value.Rebuildable ∧ value.Finite ∧ ∃ rebuilt, rebuilt.same value = true ∧
      (Machine.execute { natives := Native.standard } (fun _ => pure ())
        (.ofLiteral value.toLiteral)).run machine =
        (.ok .next, { machine with context := { machine.context with stack := [rebuilt] } }) := by
  intro program value machine
  have literal := Discipline.session_literal (.array [.integer 1, .string "+"])
  have inner : Discipline.session.Allows (.function (.program program)) :=
    Discipline.allows_function.mpr (literal.part (.program (by simp)))
  have text : Discipline.session.Allows (.text "a") := Discipline.allows_scalar rfl (by decide)
  have dict : Discipline.session.Allows (.dict [("k", .function (.program program))]) :=
    Discipline.allows_dict.mpr ⟨List.pairwise_singleton _ _, by simpa using inner⟩
  have rebuildable : value.Rebuildable :=
    rebuildable_of_allows (Discipline.allows_array.mpr (by simpa using ⟨text, dict⟩))
  have one : Number.isFinite (Number.ofInt 1) = true := by decide +kernel
  have number : Piece.All Piece.Finite (.instruction (.ofLiteral (.integer 1))) := by
    rw [Instruction.ofLiteral_integer]
    exact Piece.all_held.mpr ⟨trivial, (Piece.all_scalar rfl (by intro same; cases same)).mpr one⟩
  have token : Piece.All Piece.Finite (.instruction (.ofLiteral (.string "+"))) := by
    rw [Instruction.ofLiteral_string, Instruction.ofToken]
    split
    · exact Piece.all_token.mpr trivial
    · exact Piece.all_invalid.mpr trivial
  have body : Piece.All Piece.Finite (.body (.program program)) :=
    Piece.all_program.mpr ⟨trivial, by simpa [program, Program.ofItems_eq] using ⟨number, token⟩⟩
  have finite : value.Finite := by
    have function := Piece.all_function.mpr ⟨trivial, body⟩
    have plain : Piece.All Piece.Finite (.value (.text "a")) :=
      (Piece.all_scalar rfl (by decide)).mpr trivial
    have entries : Piece.All Piece.Finite (.value (.dict [("k", .function (.program program))])) :=
      Piece.all_dict.mpr ⟨trivial, by simpa using function⟩
    exact Piece.all_array.mpr ⟨trivial, by simpa using ⟨plain, entries⟩⟩
  obtain ⟨_, rebuilds⟩ := values_rebuild 256 false machine.host []
  exact ⟨rebuildable, finite, rebuilds value rebuildable finite _ _ machine⟩

end Session

end StackScript
