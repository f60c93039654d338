/-
# StackScript.Proofs.Writer — a tree that is written can be read

Writing appends to what has been written, and reading goes on from where it stands. So
the two are followed together: `Reads round out state` says where a reader stands behind `out`,
and a lemma for each thing that is written says where it stands behind that.

A value is complete only when the next character comes, where it is a number, and at
once otherwise. `Completes` covers both, and tells what any character does that cannot
belong to a number.

The main result is `Json.readBy_text`: a tree that can be read, however it came about, is
read back from its own text. It asks of the rounding that printed doubles are read back
bit for bit, which holds of exact rounding.
-/
import StackScript.Json.Writer
import StackScript.Proofs.Numeral
import StackScript.Proofs.Reader

namespace StackScript.Json.Reader

set_option autoImplicit false

variable {round : Rounding}

/-- Where a reader stands behind a text. -/
def Reads (round : Rounding) (out : String) (state : State) : Prop :=
  run round initial out.toList = some state

namespace Reads

variable {out : String} {state next : State}

theorem append (reads : Reads round out state) {text : String} (ran : run round state text.toList = some next) :
    Reads round (out ++ text) next := by
  rw [Reads, String.toList_append, run_append, reads]
  exact ran

theorem push (reads : Reads round out state) {c : Char} (took : step round state c = some next) :
    Reads round (out.push c) next := by
  rw [Reads, String.toList_push, run_append, reads]
  show run round state [c] = some next
  rw [run_cons, took]
  rfl

end Reads

/-! ## Strings -/

theorem hexValue?_hexDigit : ∀ n < 16, hexValue? (hexDigit n) = some n := by
  decide

section Text

variable (chars : List Char) (frames : List Frame)

/-- What writes a character is read as this character. -/
theorem run_escape (c : Char) :
    run round (inString chars .none frames) (escape c) = some (inString (c :: chars) .none frames) := by
  unfold escape
  split_ifs with quote backslash backspace tab line page carriage control
  · rw [quote]; rfl
  · rw [backslash]; rfl
  · rw [backspace]; rfl
  · rw [tab]; rfl
  · rw [line]; rfl
  · rw [page]; rfl
  · rw [carriage]; rfl
  · have high := hexValue?_hexDigit (c.toNat / 16) (by omega)
    have low := hexValue?_hexDigit (c.toNat % 16) (by omega)
    have unit : 16 * (c.toNat / 16) + c.toNat % 16 = c.toNat := Nat.div_add_mod c.toNat 16
    have notHigh : isHighSurrogate c.toNat = false := by
      simp only [isHighSurrogate, decide_eq_false_iff_not]
      omega
    have notLow : isLowSurrogate c.toNat = false := by
      simp only [isLowSurrogate, decide_eq_false_iff_not]
      omega
    show run round (inString chars (.hex 2 0) frames)
      [hexDigit (c.toNat / 16), hexDigit (c.toNat % 16)] = _
    simp [run_cons, step, inString, stepString, high, low, unit, notHigh, notLow, Char.ofNat_toNat]
    rfl
  · show (stepString chars .none frames c).bind _ = _
    simp only [stepString, quote, backslash, control, if_false]
    rfl

theorem run_escapes (text : List Char) :
    run round (inString chars .none frames) (text.flatMap escape) =
      some (inString (text.reverse ++ chars) .none frames) := by
  induction text generalizing chars with
  | nil => rfl
  | cons c text ih =>
    rw [List.flatMap_cons, run_append, run_escape]
    show run round (inString (c :: chars) .none frames) (text.flatMap escape) = _
    rw [ih, List.reverse_cons, List.append_assoc, List.singleton_append]

end Text

/-- A string is read as a key or as a value, as the reader's container wants it. -/
theorem run_quote {state : State}
    (opens : step round state '"' = some (inString [] .none state.frames)) (text : String) :
    run round state (quote text).toList = endString text state.frames := by
  rw [quote, String.toList_ofList, run_cons, opens]
  show run round (inString [] .none state.frames) (text.toList.flatMap escape ++ ['"']) = _
  rw [run_append, run_escapes, List.append_nil]
  show (endString (String.ofList text.toList.reverse.reverse) state.frames).bind _ = _
  rw [List.reverse_reverse, String.ofList_toList]
  cases endString text state.frames <;> rfl

/-! ## Complete values -/

/-- Something may be delivered to these containers. -/
def Accepts : List Frame → Prop
  | .object _ :: _ => False
  | _ => True

theorem Accepts.deliver {frames : List Frame} (accepts : Accepts frames) (value : Json) :
    ∃ state, deliver value frames = some state := by
  cases frames with
  | nil => exact ⟨_, rfl⟩
  | cons frame outer =>
    cases frame with
    | object entries => exact accepts.elim
    | array items => exact ⟨_, rfl⟩
    | entry key entries => exact ⟨_, rfl⟩

theorem Accepts.endString {frames : List Frame} (accepts : Accepts frames) (text : String) :
    endString text frames = Reader.deliver (.string text) frames := by
  unfold Reader.endString
  split
  · exact accepts.elim
  · rfl

/-- A value has been read: it is delivered, or it is a number that may go on. -/
def Completes (round : Rounding) (state : State) (value : Json) (frames : List Frame) : Prop :=
  deliver value frames = some state ∨
    ∃ chars, state = { mode := .number chars, frames } ∧ numberValue? round chars = some value

namespace Completes

variable {state : State} {value : Json} {frames : List Frame}

/-- A character that cannot belong to a number comes after the value. -/
theorem step_eq (completes : Completes round state value frames) {c : Char} (other : isNumeric c = false) :
    step round state c = (deliver value frames).bind fun next => step round next c := by
  rcases completes with delivered | ⟨chars, rfl, valued⟩
  · rw [delivered]
    rfl
  · exact stepNumber_end other valued

theorem finish_eq (completes : Completes round state value []) : finish round state = some value := by
  rcases completes with delivered | ⟨chars, rfl, valued⟩
  · cases delivered
    rfl
  · exact valued

end Completes

theorem run_numeric (chars : List Char) (frames : List Frame) {cs : List Char}
    (numeric : ∀ c ∈ cs, isNumeric c = true) :
    run round { mode := .number chars, frames } cs = some { mode := .number (cs.reverse ++ chars), frames } := by
  induction cs generalizing chars with
  | nil => rfl
  | cons c cs ih =>
    obtain ⟨first, others⟩ := List.forall_mem_cons.mp numeric
    have took : step round { mode := .number chars, frames } c = some { mode := .number (c :: chars), frames } :=
      if_pos first
    rw [run_cons, took, Option.bind_some, ih _ others, List.reverse_cons, List.append_assoc,
      List.singleton_append]

/-- A number stays open until something else comes. -/
theorem run_number {cs : List Char} {value : Json} (text : NumberText round cs value) (closable : Bool)
    (frames : List Frame) :
    ∃ state, run round { mode := .value closable, frames } cs = some state ∧ Completes round state value frames := by
  obtain ⟨numeric, ⟨c, ds, rfl, first⟩, valued⟩ := text
  have took : step round { mode := .value closable, frames } c = some { mode := .number [c], frames } := by
    show stepValue closable frames c = _
    rcases first with rfl | digit
    · rfl
    · have other {d : Char} (notDigit : d.isDigit = false) : c ≠ d := by
        rintro rfl
        rw [digit] at notDigit
        cases notDigit
      have visible : isBlank c = false := by
        simp [isBlank, other]
      simp [stepValue, visible, digit, other]
  refine ⟨{ mode := .number (c :: ds).reverse, frames }, ?_, .inr ⟨_, rfl, valued⟩⟩
  rw [run_cons, took, Option.bind_some, run_numeric _ _ (List.forall_mem_cons.mp numeric).2,
    List.reverse_cons]

/-! ## Containers -/

/-- The text of a tree is read as the tree, wherever a value may come that opens `room` more
containers. -/
def WrittenBack (round : Rounding) (room : Nat) (tree : Json) : Prop :=
  ∀ {out : String} {closable : Bool} {frames : List Frame},
    Reads round out { mode := .value closable, frames } → Accepts frames → frames.length + room ≤ maxNesting →
      ∃ state, Reads round (tree.writeOnto out) state ∧ Completes round state tree frames

section Containers

variable {room : Nat} {frames : List Frame} {out : String} {state : State}

theorem reads_items {items : List Json} (each : ∀ item ∈ items, WrittenBack round room item)
    (accepts : Accepts frames) (fits : frames.length + 1 + room ≤ maxNesting) {item : Json}
    {before : List Json} (reads : Reads round out state)
    (completes : Completes round state item (.array before :: frames)) :
    ∃ final, Reads round (writeItems out items) final ∧
      deliver (.array (before.reverse ++ item :: items)) frames = some final := by
  induction items generalizing out state item before with
  | nil =>
    obtain ⟨final, delivered⟩ := accepts.deliver (.array (before.reverse ++ [item]))
    refine ⟨final, reads.push ?_, delivered⟩
    rw [completes.step_eq (by decide)]
    show deliver (.array (item :: before).reverse) frames = some final
    rw [List.reverse_cons]
    exact delivered
  | cons next items ih =>
    obtain ⟨first, others⟩ := List.forall_mem_cons.mp each
    have comma : Reads round (out.push ',') { mode := .value false, frames := .array (item :: before) :: frames } :=
      reads.push (completes.step_eq (by decide))
    obtain ⟨middle, reads, completes⟩ := first comma trivial fits
    obtain ⟨final, reads, delivered⟩ := ih others reads completes
    rw [List.reverse_cons, List.append_assoc, List.singleton_append] at delivered
    exact ⟨final, reads, delivered⟩

theorem putEntry_fresh {key : String} {entries : List (String × Json)}
    (fresh : key ∉ entries.map Prod.fst) (value : Json) :
    putEntry key value entries = (key, value) :: entries := by
  refine if_neg fun found => fresh ?_
  obtain ⟨entry, member, same⟩ := List.any_eq_true.mp found
  exact List.mem_map.mpr ⟨entry, member, by simpa using same⟩

/-- The value under a new key stands in its object when the next character comes. -/
theorem Completes.step_entry {key : String} {value : Json} {before : List (String × Json)}
    (completes : Completes round state value (.entry key before :: frames))
    (fresh : key ∉ before.map Prod.fst) {c : Char} (other : isNumeric c = false) :
    step round state c = step round { mode := .ended, frames := .object ((key, value) :: before) :: frames } c := by
  rw [completes.step_eq other, ← putEntry_fresh fresh value]
  rfl

/-- A key and its colon, where a key must come. -/
theorem reads_key {closable : Bool} {entries : List (String × Json)}
    (reads : Reads round out { mode := .key closable, frames := .object entries :: frames }) (key : String) :
    Reads round (out ++ quote key ++ ":") { mode := .value false, frames := .entry key entries :: frames } := by
  have quoted := reads.append (run_quote (by rfl) key)
  exact quoted.append rfl

theorem reads_entries {entries : List (String × Json)}
    (each : ∀ entry ∈ entries, WrittenBack round room entry.2) (accepts : Accepts frames)
    (fits : frames.length + 1 + room ≤ maxNesting) {key : String} {value : Json}
    {before : List (String × Json)} (distinct : (key :: (before.map Prod.fst ++ entries.map Prod.fst)).Nodup)
    (reads : Reads round out state) (completes : Completes round state value (.entry key before :: frames)) :
    ∃ final, Reads round (writeEntries out entries) final ∧
      deliver (.object (before.reverse ++ (key, value) :: entries)) frames = some final := by
  induction entries generalizing out state key value before with
  | nil =>
    obtain ⟨fresh, _⟩ := List.nodup_cons.mp distinct
    rw [List.map_nil, List.append_nil] at fresh
    obtain ⟨final, delivered⟩ := accepts.deliver (.object (before.reverse ++ [(key, value)]))
    refine ⟨final, reads.push ?_, delivered⟩
    rw [completes.step_entry fresh (by decide)]
    show deliver (.object ((key, value) :: before).reverse) frames = some final
    rw [List.reverse_cons]
    exact delivered
  | cons next entries ih =>
    obtain ⟨nextKey, nextValue⟩ := next
    obtain ⟨first, others⟩ := List.forall_mem_cons.mp each
    have fresh : key ∉ before.map Prod.fst := by
      obtain ⟨absent, _⟩ := List.nodup_cons.mp distinct
      exact fun member => absent (List.mem_append_left _ member)
    have comma : Reads round (out.push ',')
        { mode := .key false, frames := .object ((key, value) :: before) :: frames } :=
      reads.push (completes.step_entry fresh (by decide))
    obtain ⟨middle, reads, completes⟩ := first (reads_key comma nextKey) trivial fits
    have distinct : (nextKey :: (((key, value) :: before).map Prod.fst ++ entries.map Prod.fst)).Nodup :=
      List.nodup_middle.mp distinct
    obtain ⟨final, reads, delivered⟩ := ih others distinct reads completes
    rw [List.reverse_cons, List.append_assoc, List.singleton_append] at delivered
    exact ⟨final, reads, delivered⟩

end Containers

/-! ## Trees -/

theorem writtenBack_of_readable (exact : round.ReadsBack) {room : Nat} {tree : Json}
    (readable : tree.Readable room) : WrittenBack round room tree := by
  induction readable with
  | null =>
    intro out closable frames reads accepts fits
    obtain ⟨state, delivered⟩ := accepts.deliver .null
    refine ⟨state, reads.append ?_, .inl delivered⟩
    show (deliver .null frames).bind _ = _
    rw [delivered]
    rfl
  | @bool _ b =>
    intro out closable frames reads accepts fits
    obtain ⟨state, delivered⟩ := accepts.deliver (.bool b)
    refine ⟨state, reads.append ?_, .inl delivered⟩
    cases b
    all_goals
      show (deliver (.bool _) frames).bind _ = _
      rw [delivered]
      rfl
  | integer least most =>
    intro out closable frames reads accepts fits
    obtain ⟨state, ran, completes⟩ := run_number (integer_text round least most) closable frames
    exact ⟨state, reads.append ran, completes⟩
  | @float _ x finite =>
    intro out closable frames reads accepts fits
    obtain ⟨state, ran, completes⟩ := run_number (exact x finite) closable frames
    exact ⟨state, reads.append ran, completes⟩
  | @string _ text =>
    intro out closable frames reads accepts fits
    obtain ⟨state, delivered⟩ := accepts.deliver (.string text)
    refine ⟨state, reads.append ?_, .inl delivered⟩
    rw [run_quote (by rfl) text]
    exact (accepts.endString text).trans delivered
  | @array room items each ih =>
    intro out closable frames reads accepts fits
    have another : frames.length < maxNesting := by omega
    have opened : step round { mode := .value closable, frames } '[' =
        some { mode := .value true, frames := .array [] :: frames } := if_pos another
    cases items with
    | nil =>
      obtain ⟨state, delivered⟩ := accepts.deliver (.array [])
      refine ⟨state, reads.append ?_, .inl delivered⟩
      show run round _ ['[', ']'] = _
      rw [run_cons, opened, Option.bind_some, run_cons]
      show (deliver (.array []) frames).bind _ = _
      rw [delivered]
      rfl
    | cons item items =>
      obtain ⟨first, others⟩ := List.forall_mem_cons.mp ih
      have fits : frames.length + 1 + room ≤ maxNesting := by omega
      obtain ⟨middle, reads, completes⟩ := first (reads.push opened) trivial fits
      obtain ⟨final, reads, delivered⟩ := reads_items others accepts fits reads completes
      exact ⟨final, reads, .inl delivered⟩
  | @object room entries distinct each ih =>
    intro out closable frames reads accepts fits
    have another : frames.length < maxNesting := by omega
    have opened : step round { mode := .value closable, frames } '{' =
        some { mode := .key true, frames := .object [] :: frames } := if_pos another
    cases entries with
    | nil =>
      obtain ⟨state, delivered⟩ := accepts.deliver (.object [])
      refine ⟨state, reads.append ?_, .inl delivered⟩
      show run round _ ['{', '}'] = _
      rw [run_cons, opened, Option.bind_some, run_cons]
      show (deliver (.object []) frames).bind _ = _
      rw [delivered]
      rfl
    | cons entry entries =>
      obtain ⟨key, value⟩ := entry
      obtain ⟨first, others⟩ := List.forall_mem_cons.mp ih
      have fits : frames.length + 1 + room ≤ maxNesting := by omega
      obtain ⟨middle, reads, completes⟩ := first (reads_key (reads.push opened) key) trivial fits
      have distinct : (key :: (([] : List (String × Json)).map Prod.fst ++ entries.map Prod.fst)).Nodup :=
        distinct
      obtain ⟨final, reads, delivered⟩ := reads_entries others accepts fits distinct reads completes
      exact ⟨final, reads, .inl delivered⟩

end StackScript.Json.Reader

namespace StackScript.Json

/-- **A tree that can be read is read back from its text**, by any reader that reads every
finite double back. -/
theorem readBy_text {round : Reader.Rounding} (exact : round.ReadsBack) {tree : Json}
    (readable : tree.Readable Reader.maxNesting) : Json.readBy round tree.text = .ok tree := by
  have start : Reader.Reads round "" { mode := .value false, frames := [] } := rfl
  have fits : ([] : List Reader.Frame).length + Reader.maxNesting ≤ Reader.maxNesting := by decide
  obtain ⟨state, reads, completes⟩ :=
    Reader.writtenBack_of_readable exact readable start trivial fits
  have ran : Reader.run round Reader.initial tree.text.toList = some state := reads
  simp only [Json.readBy, Json.readBy?, ran, completes.finish_eq]

end StackScript.Json
