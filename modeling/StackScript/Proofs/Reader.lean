/-
# StackScript.Proofs.Reader — what the reader of trees keeps

The reader takes one character at a time, and everything that holds of all texts holds
because every character keeps it. `Reader.Follows` collects what one character keeps,
with a lemma for each mode of the reader.

* The trees in the making can be read: they are nested no deeper than is left to them,
  their integers fit 64 bits, and no object has a key twice (`State.Sound`, and for
  the tree that is given at last `Json.readable_of_readBy`).
* The scanner of entries, which knows how many brackets are open, whether it is in a
  string and whether a backslash came last, is the shadow of the reader: cast the
  reader's state to these three, and the shadow moves as the scanner does
  (`Follows.shadow`).
* No line ends in a string, and something is open until the last bracket.
-/
import Mathlib.Data.List.Nodup
import StackScript.Entry
import StackScript.Json.Reader

namespace StackScript

set_option autoImplicit false

/-! ## Trees that can be read -/

/-- A tree that a reader can give where `room` more containers may open inside each other:
its integers fit 64 bits, and no object has a key twice. -/
inductive Json.Readable : Nat → Json → Prop
  | null {room : Nat} : Readable room .null
  | bool {room : Nat} {b : Bool} : Readable room (.bool b)
  | integer {room : Nat} {n : Int} (least : -(Number.wordBound : Int) ≤ 2 * n)
      (most : n < Number.wordBound) : Readable room (.integer n)
  | float {room : Nat} {x : Float} {finite : Number.isFinite x = true} :
      Readable room (.float x finite)
  | string {room : Nat} {text : String} : Readable room (.string text)
  | array {room : Nat} {items : List Json} (each : ∀ item ∈ items, Readable room item) :
      Readable (room + 1) (.array items)
  | object {room : Nat} {entries : List (String × Json)}
      (distinct : (entries.map Prod.fst).Nodup) (each : ∀ entry ∈ entries, Readable room entry.2) :
      Readable (room + 1) (.object entries)

namespace Json.Reader

variable {round : Rounding}

/-- The entries of an object in the making. -/
structure Collected (room : Nat) (entries : List (String × Json)) : Prop where
  distinct : (entries.map Prod.fst).Nodup
  each : ∀ entry ∈ entries, entry.2.Readable room

theorem Collected.nil {room : Nat} : Collected room [] :=
  ⟨List.nodup_nil, fun _ member => absurd member List.not_mem_nil⟩

theorem Collected.put {room : Nat} {entries : List (String × Json)} (collected : Collected room entries)
    (key : String) {value : Json} (readable : value.Readable room) :
    Collected room (putEntry key value entries) := by
  unfold putEntry
  split
  · have keys : (entries.map fun entry => if entry.1 == key then (key, value) else entry).map Prod.fst =
        entries.map Prod.fst := by
      rw [List.map_map]
      refine List.map_congr_left fun entry _ => ?_
      by_cases same : entry.1 = key <;> simp [same]
    refine ⟨by rw [keys]; exact collected.distinct, fun entry member => ?_⟩
    obtain ⟨old, within, rfl⟩ := List.mem_map.mp member
    split
    · exact readable
    · exact collected.each old within
  · rename_i absent
    refine ⟨?_, List.forall_mem_cons.mpr ⟨readable, collected.each⟩⟩
    refine List.nodup_cons.mpr ⟨fun member => absent ?_, collected.distinct⟩
    obtain ⟨entry, within, same⟩ := List.mem_map.mp member
    exact List.any_eq_true.mpr ⟨entry, within, by simpa using same⟩

def Frame.Readable (room : Nat) : Frame → Prop
  | .array items => ∀ item ∈ items, item.Readable room
  | .object entries => Collected room entries
  | .entry _ entries => Collected room entries

/-- Open containers, innermost first: what each holds can be read where it stands. -/
def Nested : List Frame → Prop
  | [] => True
  | frame :: outer =>
    outer.length < maxNesting ∧ frame.Readable (maxNesting - (outer.length + 1)) ∧ Nested outer

theorem numberValue?_readable {chars : List Char} {value : Json}
    (valued : numberValue? round chars = some value) (room : Nat) : value.Readable room := by
  unfold numberValue? at valued
  split at valued
  · cases valued
  · rename_i numeral _
    dsimp only at valued
    split at valued
    · rename_i small
      cases valued
      simp only [Bool.and_eq_true, decide_eq_true_eq] at small
      exact .integer (by omega) (by omega)
    · split at valued
      · rename_i small
        cases valued
        simp only [Bool.and_eq_true, bne_iff_ne, decide_eq_true_eq] at small
        exact .integer (by omega) (by omega)
      · split at valued
        · cases valued
        · split at valued
          · cases valued
            exact .float
          · cases valued

/-! ## States -/

/-- A character that means nothing to a scanner of entries outside a string. -/
def Plain (c : Char) : Prop :=
  c ≠ '"' ∧ c ≠ '{' ∧ c ≠ '[' ∧ c ≠ '}' ∧ c ≠ ']'

instance (c : Char) : Decidable (Plain c) :=
  inferInstanceAs (Decidable (_ ∧ _))

def Mode.Sound (frames : List Frame) : Mode → Prop
  | .word rest result => (∀ c ∈ rest, Plain c) ∧ ∀ room, result.Readable room
  | .done result => frames = [] ∧ result.Readable maxNesting
  | _ => True

structure State.Sound (state : State) : Prop where
  frames : Nested state.frames
  mode : state.mode.Sound state.frames

theorem initial_sound : initial.Sound :=
  ⟨trivial, trivial⟩

def Mode.inString : Mode → Bool
  | .string .. => true
  | _ => false

/-- A backslash came last, and the next character belongs to it. -/
def Mode.escaped : Mode → Bool
  | .string _ .start => true
  | .string _ (.lowMark _) => true
  | _ => false

/-- What a scanner of entries knows of the reader. -/
def State.shadow (state : State) : Scanner :=
  { depth := .ofNat state.frames.length, inString := state.mode.inString, escaped := state.mode.escaped }

theorem Mode.escaped_of_outside {mode : Mode} (outside : mode.inString = false) :
    mode.escaped = false := by
  cases mode with
  | string _ _ => cases outside
  | _ => rfl

theorem State.shadow_outside {state : State} (outside : state.mode.inString = false) :
    state.shadow = { depth := .ofNat state.frames.length } := by
  rw [shadow, outside, Mode.escaped_of_outside outside]

theorem Nested.length_le {frames : List Frame} (nested : Nested frames) :
    frames.length ≤ maxNesting := by
  cases frames with
  | nil => exact Nat.zero_le _
  | cons frame outer => exact nested.1

/-- Between strings, the scanner waits for more while something is open. The reader opens at
most 127 containers, so that the scanner's count of them does not wrap around. -/
theorem State.Sound.waits {state : State} (sound : state.Sound) (opened : state.frames ≠ [])
    (outside : state.mode.inString = false) : state.shadow.isComplete = false := by
  have positive : 0 < state.frames.length := List.length_pos_iff.mpr opened
  have bounded : state.frames.length ≤ 127 := sound.frames.length_le
  have counted : (Int32.ofNat state.frames.length).toInt = state.frames.length :=
    Int32.toInt_ofNat_of_lt (by omega)
  have deep : ¬ Int32.ofNat state.frames.length ≤ 0 := by
    rw [Int32.le_iff_toInt_le, counted]
    change ¬ (state.frames.length : Int) ≤ 0
    omega
  rw [State.shadow_outside outside]
  simpa [Scanner.isComplete] using deep

theorem step_plain {scanner : Scanner} (outside : scanner.inString = false) {c : Char}
    (plain : Plain c) : scanner.step c = scanner := by
  obtain ⟨quote, brace, bracket, unbrace, unbracket⟩ := plain
  simp [Scanner.step, outside, quote, brace, bracket, unbrace, unbracket]

/-! ## What one character keeps -/

structure Follows (state : State) (c : Char) (next : State) : Prop where
  sound : next.Sound
  shadow : state.shadow.step c = next.shadow
  /-- No line ends in a string. -/
  line : c = '\n' → state.mode.inString = false
  /-- The last container to close ends the tree. -/
  last : next.frames = [] → state.frames = [] ∨ ∃ result, next.mode = .done result

namespace Follows

variable {state next : State} {c : Char}

theorem plain (sound : next.Sound) (plain : Plain c) (before : state.mode.inString = false)
    (after : next.mode.inString = false) (same : next.frames.length = state.frames.length) :
    Follows state c next where
  sound := sound
  shadow := by
    rw [step_plain before plain, State.shadow_outside before, State.shadow_outside after, same]
  line _ := before
  last empty := .inl (List.length_eq_zero_iff.mp (by rw [← same, empty]; rfl))

theorem opens (sound : next.Sound) (bracket : c = '[' ∨ c = '{')
    (before : state.mode.inString = false) (after : next.mode.inString = false)
    (more : next.frames.length = state.frames.length + 1) : Follows state c next where
  sound := sound
  shadow := by
    rw [State.shadow_outside before, State.shadow_outside after, more]
    rcases bracket with rfl | rfl <;> simp [Scanner.step]
  line _ := before
  last empty := by
    rw [empty] at more
    cases more

theorem closes (sound : next.Sound) (bracket : c = ']' ∨ c = '}')
    (before : state.mode.inString = false) (after : next.mode.inString = false)
    (less : next.frames.length + 1 = state.frames.length)
    (last : next.frames = [] → ∃ result, next.mode = .done result) : Follows state c next where
  sound := sound
  shadow := by
    rw [State.shadow_outside before, State.shadow_outside after, ← less]
    rcases bracket with rfl | rfl <;> simp [Scanner.step]
  line _ := before
  last empty := .inr (last empty)

/-- Outside a string only the number of open containers matters. -/
theorem of_length {state' : State} (follows : Follows state c next)
    (before : state.mode.inString = false) (before' : state'.mode.inString = false)
    (same : state'.frames.length = state.frames.length) : Follows state' c next where
  sound := follows.sound
  shadow := by
    rw [← follows.shadow, State.shadow_outside before, State.shadow_outside before', same]
  line _ := before'
  last empty := by
    refine (follows.last empty).imp_left fun outer => ?_
    exact List.length_eq_zero_iff.mp (by rw [same, outer]; rfl)

end Follows

/-! ## Values and containers -/

/-- A value that is delivered ends the tree, or stands in a container that stays open. -/
theorem deliver_cases {value : Json} {frames : List Frame} {next : State}
    (delivered : deliver value frames = some next) :
    next.frames.length = frames.length ∧
      (frames = [] ∧ next.mode = .done value ∨ frames ≠ [] ∧ next.mode = .ended) := by
  cases frames with
  | nil =>
    cases delivered
    exact ⟨rfl, .inl ⟨rfl, rfl⟩⟩
  | cons frame frames =>
    cases frame <;> cases delivered
    · exact ⟨rfl, .inr ⟨by simp, rfl⟩⟩
    · exact ⟨rfl, .inr ⟨by simp, rfl⟩⟩

theorem deliver_outside {value : Json} {frames : List Frame} {next : State}
    (delivered : deliver value frames = some next) : next.mode.inString = false := by
  obtain ⟨mode, inner⟩ := next
  obtain ⟨_, ⟨_, rfl⟩ | ⟨_, rfl⟩⟩ := deliver_cases delivered <;> rfl

theorem deliver_sound {value : Json} {frames : List Frame} {next : State} (nested : Nested frames)
    (readable : value.Readable (maxNesting - frames.length))
    (delivered : deliver value frames = some next) : next.Sound := by
  cases frames with
  | nil =>
    cases delivered
    exact ⟨trivial, rfl, readable⟩
  | cons frame outer =>
    obtain ⟨room, held, nested⟩ := nested
    cases frame with
    | object entries => cases delivered
    | array items =>
      cases delivered
      exact ⟨⟨room, List.forall_mem_cons.mpr ⟨readable, held⟩, nested⟩, trivial⟩
    | entry key entries =>
      cases delivered
      exact ⟨⟨room, Collected.put held key readable, nested⟩, trivial⟩

/-- A container that closes is delivered to the ones around it. -/
theorem closed_follows {mode : Mode} {frame : Frame} {outer : List Frame} {value : Json} {c : Char}
    {next : State} (nested : Nested (frame :: outer))
    (readable : ∀ room, frame.Readable room → value.Readable (room + 1))
    (before : mode.inString = false) (bracket : c = ']' ∨ c = '}')
    (delivered : deliver value outer = some next) :
    Follows { mode, frames := frame :: outer } c next := by
  obtain ⟨room, held, nested⟩ := nested
  have fits : maxNesting - (outer.length + 1) + 1 = maxNesting - outer.length := by omega
  have sound := deliver_sound nested (fits ▸ readable _ held) delivered
  obtain ⟨length, ended⟩ := deliver_cases delivered
  refine .closes sound bracket before (deliver_outside delivered) (by simp [length]) fun empty => ?_
  rcases ended with ⟨_, mode⟩ | ⟨inner, _⟩
  · exact ⟨value, mode⟩
  · rw [empty] at length
    exact absurd (List.length_eq_zero_iff.mp length.symm) inner

theorem closeArray_follows {mode : Mode} {frames : List Frame} {next : State} (nested : Nested frames)
    (before : mode.inString = false) (closed : closeArray frames = some next) :
    Follows { mode, frames } ']' next := by
  unfold closeArray at closed
  split at closed
  · refine closed_follows nested (fun room held => .array ?_) before (.inl rfl) closed
    exact fun item member => held item (List.mem_reverse.mp member)
  · cases closed

theorem closeObject_follows {mode : Mode} {frames : List Frame} {next : State}
    (nested : Nested frames) (before : mode.inString = false)
    (closed : closeObject frames = some next) : Follows { mode, frames } '}' next := by
  unfold closeObject at closed
  split at closed
  · refine closed_follows nested (fun room held => .object ?_ ?_) before (.inr rfl) closed
    · rw [List.map_reverse]
      exact List.nodup_reverse.mpr held.distinct
    · exact fun entry member => held.each entry (List.mem_reverse.mp member)
  · cases closed

/-- A container opens empty. -/
theorem openFrame_follows {mode inner : Mode} {frame : Frame} {frames : List Frame} {c : Char}
    {next : State} (nested : Nested frames) (opened : openFrame frame inner frames = some next)
    (empty : ∀ room, frame.Readable room) (bracket : c = '[' ∨ c = '{')
    (before : mode.inString = false) (after : inner.inString = false)
    (waits : inner.Sound (frame :: frames)) : Follows { mode, frames } c next := by
  obtain ⟨room, same⟩ := Option.ite_none_right_eq_some.mp opened
  cases same
  exact .opens ⟨⟨room, empty _, nested⟩, waits⟩ bracket before after rfl

/-! ## Outside strings -/

theorem plain_of_isBlank {c : Char} (blank : isBlank c = true) : Plain c := by
  simp only [isBlank, Bool.or_eq_true, beq_iff_eq] at blank
  rcases blank with ((rfl | rfl) | rfl) | rfl <;> decide

theorem plain_of_isNumeric {c : Char} (numeric : isNumeric c = true) : Plain c := by
  refine ⟨?_, ?_, ?_, ?_, ?_⟩ <;> rintro rfl <;> exact absurd numeric (by decide)

/-- A number starts with a digit or a minus. -/
theorem isNumeric_of_first {c : Char} (first : (c = '-' || c.isDigit) = true) :
    isNumeric c = true := by
  simp only [isNumeric, Bool.or_eq_true, beq_iff_eq, decide_eq_true_eq] at first ⊢
  rcases first with minus | digit
  · simp [minus]
  · simp [digit]

/-- A quote outside a string opens one. -/
theorem quote_follows {mode : Mode} {frames : List Frame} (nested : Nested frames)
    (before : mode.inString = false) :
    Follows { mode, frames } '"' { mode := .string [] .none, frames } where
  sound := ⟨nested, trivial⟩
  shadow := by
    rw [State.shadow_outside before]
    rfl
  line ends := absurd ends (by decide)
  last empty := .inl empty

section Modes

variable {frames : List Frame} {c : Char} {next : State}

theorem stepValue_follows {closable : Bool} (nested : Nested frames)
    (took : stepValue closable frames c = some next) :
    Follows { mode := .value closable, frames } c next := by
  -- the first letter of a word is taken, and the rest of it is awaited
  have word {rest : List Char} {result : Json} (first : Plain c) (letters : ∀ c ∈ rest, Plain c)
      (readable : ∀ room, result.Readable room) :
      Follows { mode := .value closable, frames } c { mode := .word rest result, frames } :=
    .plain ⟨nested, letters, readable⟩ first rfl rfl rfl
  unfold stepValue at took
  split at took
  · rename_i blank
    cases took
    exact .plain ⟨nested, trivial⟩ (plain_of_isBlank blank) rfl rfl rfl
  split at took
  · rename_i bracket
    exact openFrame_follows nested took (fun _ _ member => absurd member List.not_mem_nil)
      (.inl bracket) rfl rfl trivial
  split at took
  · rename_i brace
    exact openFrame_follows nested took (fun _ => .nil) (.inr brace) rfl rfl trivial
  split at took
  · rename_i unbracket
    subst unbracket
    exact closeArray_follows nested rfl (Option.ite_none_right_eq_some.mp took).2
  split at took
  · rename_i quote
    cases took
    subst quote
    exact quote_follows nested rfl
  split at took
  · rename_i letter
    cases took
    exact word (by rw [letter]; decide) (by simp [Plain]) fun _ => .bool
  split at took
  · rename_i letter
    cases took
    exact word (by rw [letter]; decide) (by simp [Plain]) fun _ => .bool
  split at took
  · rename_i letter
    cases took
    exact word (by rw [letter]; decide) (by simp [Plain]) fun _ => .null
  split at took
  · rename_i first
    cases took
    have plain := plain_of_isNumeric (isNumeric_of_first first)
    exact .plain ⟨nested, trivial⟩ plain rfl rfl rfl
  · cases took

theorem stepKey_follows {closable : Bool} (nested : Nested frames)
    (took : stepKey closable frames c = some next) :
    Follows { mode := .key closable, frames } c next := by
  unfold stepKey at took
  split at took
  · rename_i blank
    cases took
    exact .plain ⟨nested, trivial⟩ (plain_of_isBlank blank) rfl rfl rfl
  split at took
  · rename_i quote
    cases took
    subst quote
    exact quote_follows nested rfl
  split at took
  · rename_i unbrace
    subst unbrace
    exact closeObject_follows nested rfl (Option.ite_none_right_eq_some.mp took).2
  · cases took

theorem stepColon_follows (nested : Nested frames) (took : stepColon frames c = some next) :
    Follows { mode := .colon, frames } c next := by
  unfold stepColon at took
  split at took
  · rename_i blank
    cases took
    exact .plain ⟨nested, trivial⟩ (plain_of_isBlank blank) rfl rfl rfl
  split at took
  · rename_i colon
    cases took
    exact .plain ⟨nested, trivial⟩ (by rw [colon]; decide) rfl rfl rfl
  · cases took

theorem stepEnded_follows (nested : Nested frames) (took : stepEnded frames c = some next) :
    Follows { mode := .ended, frames } c next := by
  unfold stepEnded at took
  split at took
  · rename_i blank
    cases took
    exact .plain ⟨nested, trivial⟩ (plain_of_isBlank blank) rfl rfl rfl
  split at took
  · rename_i comma
    have plain : Plain c := by rw [comma]; decide
    split at took
    · cases took
      exact .plain ⟨nested, trivial⟩ plain rfl rfl rfl
    · cases took
      exact .plain ⟨nested, trivial⟩ plain rfl rfl rfl
    · cases took
  split at took
  · rename_i unbracket
    subst unbracket
    exact closeArray_follows nested rfl took
  split at took
  · rename_i unbrace
    subst unbrace
    exact closeObject_follows nested rfl took
  · cases took

theorem stepDone_follows {result : Json} (sound : State.Sound { mode := .done result, frames })
    (took : stepDone result frames c = some next) :
    Follows { mode := .done result, frames } c next := by
  obtain ⟨blank, same⟩ := Option.ite_none_right_eq_some.mp took
  cases same
  exact .plain sound (plain_of_isBlank blank) rfl rfl rfl

/-- A number is delivered by the character behind it, which is then taken as usual. -/
theorem stepNumber_end {chars : List Char} (other : isNumeric c = false) {value : Json}
    (valued : numberValue? round chars = some value) :
    stepNumber round chars frames c = (deliver value frames).bind fun next => step round next c := by
  simp only [stepNumber, other, valued]
  cases delivered : deliver value frames with
  | none => rfl
  | some next =>
    obtain ⟨mode, frames⟩ := next
    rcases (deliver_cases delivered).2 with ⟨_, same⟩ | ⟨_, same⟩ <;> cases same <;> rfl

theorem stepNumber_follows {chars : List Char} (nested : Nested frames)
    (took : stepNumber round chars frames c = some next) :
    Follows { mode := .number chars, frames } c next := by
  cases numeric : isNumeric c with
  | true =>
    rw [stepNumber, if_pos numeric] at took
    cases took
    exact .plain ⟨nested, trivial⟩ (plain_of_isNumeric numeric) rfl rfl rfl
  | false =>
    cases valued : numberValue? round chars with
    | none => simp [stepNumber, numeric, valued] at took
    | some value =>
      rw [stepNumber_end numeric valued, Option.bind_eq_some_iff] at took
      obtain ⟨⟨mode, inner⟩, delivered, took⟩ := took
      have sound := deliver_sound nested (numberValue?_readable valued _) delivered
      obtain ⟨length, ⟨_, rfl⟩ | ⟨_, rfl⟩⟩ := deliver_cases delivered
      · exact (stepDone_follows sound took).of_length rfl rfl length.symm
      · exact (stepEnded_follows sound.frames took).of_length rfl rfl length.symm

theorem stepWord_follows {rest : List Char} {result : Json}
    (sound : State.Sound { mode := .word rest result, frames })
    (took : stepWord rest result frames c = some next) :
    Follows { mode := .word rest result, frames } c next := by
  obtain ⟨nested, letters, readable⟩ := sound
  unfold stepWord at took
  split at took
  · cases took
  · obtain ⟨rfl, delivered⟩ := Option.ite_none_right_eq_some.mp took
    exact .plain (deliver_sound nested (readable _) delivered) (letters c (by simp)) rfl
      (deliver_outside delivered) (deliver_cases delivered).1
  · obtain ⟨rfl, same⟩ := Option.ite_none_right_eq_some.mp took
    cases same
    obtain ⟨plain, letters⟩ := List.forall_mem_cons.mp letters
    exact .plain ⟨nested, letters, readable⟩ plain rfl rfl rfl

/-! ## Inside strings -/

theorem hexValue?_plain {digit : Nat} (hex : hexValue? c = some digit) :
    c ≠ '"' ∧ c ≠ '\\' ∧ c ≠ '\n' := by
  refine ⟨?_, ?_, ?_⟩ <;> rintro rfl <;> cases hex

/-- A string ends as a key or as a value. -/
theorem endString_follows {chars : List Char} {text : String} (nested : Nested frames)
    (ended : endString text frames = some next) :
    Follows { mode := .string chars .none, frames } '"' next := by
  have after : next.Sound ∧ next.mode.inString = false ∧ next.frames.length = frames.length := by
    unfold endString at ended
    split at ended
    · cases ended
      exact ⟨⟨nested, trivial⟩, rfl, rfl⟩
    · exact ⟨deliver_sound nested .string ended, deliver_outside ended, (deliver_cases ended).1⟩
  obtain ⟨sound, outside, length⟩ := after
  refine ⟨sound, ?_, fun ends => absurd ends (by decide), fun empty => ?_⟩
  · rw [State.shadow_outside outside, length]
    rfl
  · exact .inl (List.length_eq_zero_iff.mp (by rw [← length, empty]; rfl))

variable {chars chars' : List Char} {escape escape' : Escape}

/-- A character inside a string, which does not end it. -/
theorem inString_follows (nested : Nested frames) (line : c ≠ '\n')
    (shadow : (inString chars escape frames).shadow.step c = (inString chars' escape' frames).shadow) :
    Follows { mode := .string chars escape, frames } c (inString chars' escape' frames) where
  sound := ⟨nested, trivial⟩
  shadow := shadow
  line ends := absurd ends line
  last empty := .inl empty

/-- The character behind a backslash may be any. -/
theorem escaped_follows (nested : Nested frames) (line : c ≠ '\n')
    (before : (Mode.string chars escape).escaped = true)
    (after : (Mode.string chars' escape').escaped = false) :
    Follows { mode := .string chars escape, frames } c (inString chars' escape' frames) := by
  refine inString_follows nested line ?_
  simp [State.shadow, inString, before, after, Mode.inString, Scanner.step]

/-- Any other character is neither a quote nor a backslash. -/
theorem text_follows (nested : Nested frames) (other : c ≠ '"' ∧ c ≠ '\\' ∧ c ≠ '\n')
    (before : (Mode.string chars escape).escaped = false)
    (after : (Mode.string chars' escape').escaped = false) :
    Follows { mode := .string chars escape, frames } c (inString chars' escape' frames) := by
  obtain ⟨quote, backslash, line⟩ := other
  refine inString_follows nested line ?_
  simp [State.shadow, inString, before, after, Mode.inString, Scanner.step, quote, backslash]

theorem stepString_follows (nested : Nested frames)
    (took : stepString chars escape frames c = some next) :
    Follows { mode := .string chars escape, frames } c next := by
  cases escape with
  | none =>
    simp only [stepString] at took
    split at took
    · rename_i quote
      subst quote
      exact endString_follows nested took
    split at took
    · rename_i backslash
      subst backslash
      cases took
      exact inString_follows nested (by decide) rfl
    split at took
    · cases took
    · rename_i quote backslash printable
      cases took
      refine text_follows nested ⟨quote, backslash, ?_⟩ rfl rfl
      rintro rfl
      exact printable (by decide)
  | start =>
    simp only [stepString] at took
    split at took
    · rename_i mark
      cases took
      exact escaped_follows nested (by rw [mark]; decide) rfl rfl
    · split at took
      · rename_i written simple
        cases took
        refine escaped_follows nested ?_ rfl rfl
        rintro rfl
        cases simple
      · cases took
  | hex count value =>
    simp only [stepString] at took
    split at took
    · cases took
    · rename_i digit hex
      have other := hexValue?_plain hex
      split at took
      · cases took
        exact text_follows nested other rfl rfl
      split at took
      · cases took
        exact text_follows nested other rfl rfl
      split at took
      · cases took
      · cases took
        exact text_follows nested other rfl rfl
  | lowStart high =>
    obtain ⟨rfl, same⟩ := Option.ite_none_right_eq_some.mp took
    cases same
    exact inString_follows nested (by decide) rfl
  | lowMark high =>
    obtain ⟨rfl, same⟩ := Option.ite_none_right_eq_some.mp took
    cases same
    exact escaped_follows nested (by decide) rfl rfl
  | lowHex high count value =>
    simp only [stepString] at took
    split at took
    · cases took
    · rename_i digit hex
      have other := hexValue?_plain hex
      split at took
      · cases took
        exact text_follows nested other rfl rfl
      split at took
      · cases took
        exact text_follows nested other rfl rfl
      · cases took

end Modes

/-! ## What a text keeps -/

theorem step_follows {state next : State} {c : Char} (sound : state.Sound)
    (took : step round state c = some next) : Follows state c next := by
  obtain ⟨mode, frames⟩ := state
  cases mode with
  | value closable => exact stepValue_follows sound.frames took
  | key closable => exact stepKey_follows sound.frames took
  | colon => exact stepColon_follows sound.frames took
  | ended => exact stepEnded_follows sound.frames took
  | done result => exact stepDone_follows sound took
  | word rest result => exact stepWord_follows sound took
  | number chars => exact stepNumber_follows sound.frames took
  | string chars escape => exact stepString_follows sound.frames took

theorem run_cons (state : State) (c : Char) (cs : List Char) :
    run round state (c :: cs) = (step round state c).bind fun next => run round next cs := rfl

theorem run_append (state : State) (first second : List Char) :
    run round state (first ++ second) = (run round state first).bind fun next => run round next second :=
  List.foldlM_append

theorem run_follows {state final : State} {cs : List Char} (sound : state.Sound)
    (ran : run round state cs = some final) :
    final.Sound ∧ cs.foldl Scanner.step state.shadow = final.shadow := by
  induction cs generalizing state with
  | nil =>
    cases ran
    exact ⟨sound, rfl⟩
  | cons c cs ih =>
    obtain ⟨next, took, ran⟩ := Option.bind_eq_some_iff.mp ran
    have follows := step_follows sound took
    rw [List.foldl_cons, follows.shadow]
    exact ih follows.sound ran

/-- Behind a line feed the reader is in no string. -/
theorem run_line {state final : State} {cs : List Char} (sound : state.Sound)
    (ran : run round state (cs ++ ['\n']) = some final) : final.mode.inString = false := by
  rw [run_append, Option.bind_eq_some_iff] at ran
  obtain ⟨middle, ran, last⟩ := ran
  obtain ⟨next, took, same⟩ := Option.bind_eq_some_iff.mp last
  cases same
  have follows := step_follows (run_follows sound ran).1 took
  have outside := follows.line rfl
  have kept := follows.shadow
  rw [step_plain outside (by decide)] at kept
  exact (congrArg Scanner.inString kept.symm).trans outside

/-- Behind a finished tree stand blanks only. -/
theorem run_done {result : Json} {frames : List Frame} {cs : List Char} {final : State}
    (ran : run round { mode := .done result, frames } cs = some final) : ∀ c ∈ cs, isBlank c = true := by
  induction cs with
  | nil => nofun
  | cons c cs ih =>
    obtain ⟨next, took, ran⟩ := Option.bind_eq_some_iff.mp ran
    obtain ⟨blank, same⟩ := Option.ite_none_right_eq_some.mp took
    cases same
    exact List.forall_mem_cons.mpr ⟨blank, ih ran⟩

/-- Inside a container something stays open until the last character that is no blank. -/
theorem run_open {state final : State} {first second : List Char} {close : Char} (sound : state.Sound)
    (opened : state.frames ≠ []) (visible : isBlank close = false)
    (ran : run round state (first ++ (second ++ [close])) = some final) :
    ∃ middle, run round state first = some middle ∧ middle.frames ≠ [] := by
  induction first generalizing state with
  | nil => exact ⟨state, rfl, opened⟩
  | cons c first ih =>
    obtain ⟨next, took, ran⟩ := Option.bind_eq_some_iff.mp ran
    have follows := step_follows sound took
    have stillOpen : next.frames ≠ [] := by
      intro empty
      obtain ⟨result, finished⟩ := (follows.last empty).resolve_left opened
      obtain ⟨mode, frames⟩ := next
      cases finished
      have blank := run_done ran close (by simp)
      rw [visible] at blank
      cases blank
    obtain ⟨middle, ran, inner⟩ := ih follows.sound stillOpen ran
    exact ⟨middle, by rw [run_cons, took]; exact ran, inner⟩

theorem finish_closed {final : State} {tree : Json} (sound : final.Sound)
    (finished : finish round final = some tree) :
    final.frames = [] ∧ final.mode.inString = false ∧ tree.Readable maxNesting := by
  obtain ⟨mode, frames⟩ := final
  cases mode with
  | done result =>
    obtain ⟨empty, readable⟩ := sound.mode
    cases finished
    exact ⟨empty, rfl, readable⟩
  | number chars =>
    obtain ⟨empty, valued⟩ := Option.ite_none_right_eq_some.mp finished
    exact ⟨List.isEmpty_iff.mp empty, rfl, numberValue?_readable valued _⟩
  | _ => cases finished

end Json.Reader

namespace Json

theorem run_of_readBy {round : Reader.Rounding} {text : String} {tree : Json}
    (read : Json.readBy round text = .ok tree) :
    ∃ final, Reader.run round Reader.initial text.toList = some final ∧
      Reader.finish round final = some tree := by
  unfold Json.readBy Json.readBy? at read
  split at read
  · rename_i found given
    cases read
    split at given
    · rename_i final ran
      exact ⟨final, ran, given⟩
    · cases given
  · cases read

/-- Every tree that is read can be read. -/
theorem readable_of_readBy {round : Reader.Rounding} {text : String} {tree : Json}
    (read : Json.readBy round text = .ok tree) : tree.Readable Reader.maxNesting := by
  obtain ⟨final, ran, finished⟩ := run_of_readBy read
  have sound := (Reader.run_follows Reader.initial_sound ran).1
  exact (Reader.finish_closed sound finished).2.2

end Json

end StackScript
