/-
# StackScript.Proofs.Entry — an entry is never split inside a program

A scanner of entries that is fed a program stands wherever the reader of the program
stands: it is the reader's shadow. A line feed is never inside a string, and before the
last bracket something is open, so the entry goes on at every line feed of the program
and ends with it (`readEntry_program`).
-/
import StackScript.Proofs.Lines
import StackScript.Proofs.Reader

namespace StackScript

set_option autoImplicit false

/-! ## Lines -/

namespace Input

/-- The lines of characters. -/
def ofChars (cs : List Char) : Input :=
  ofText (String.ofList cs)

theorem ofChars_eq (cs : List Char) :
    ofChars cs = (cut '\n' cs).map fun line => .text (String.ofList line) := by
  rw [ofChars, ofText, String.toList_ofList, cutAfter_start]

theorem ofChars_line {line : List Char} (unbroken : '\n' ∉ line) (rest : List Char) :
    ofChars (line ++ '\n' :: rest) = .text (String.ofList (line ++ ['\n'])) :: ofChars rest := by
  rw [ofChars_eq, cut_line unbroken, List.map_cons, ← ofChars_eq]

theorem ofChars_last {line : List Char} (unbroken : '\n' ∉ line) (nonempty : line ≠ []) :
    ofChars line = [.text (String.ofList line)] := by
  rw [ofChars_eq, cut_last unbroken nonempty, List.map_singleton]

/-- A property of all texts, from the text behind the first line to the text. -/
theorem lineInduction {motive : List Char → Prop} (last : ∀ line, '\n' ∉ line → motive line)
    (line : ∀ line rest, '\n' ∉ line → motive rest → motive (line ++ '\n' :: rest))
    (cs : List Char) : motive cs := by
  suffices ∀ start, '\n' ∉ start → motive (start ++ cs) from this [] (by simp)
  induction cs with
  | nil =>
    intro start unbroken
    rw [List.append_nil]
    exact last start unbroken
  | cons c cs ih =>
    intro start unbroken
    by_cases ends : c = '\n'
    · rw [ends]
      exact line start cs unbroken (ih [] (by simp))
    · rw [List.append_cons]
      exact ih (start ++ [c]) (by simpa [unbroken] using Ne.symm ends)

theorem ofChars_append (first second : List Char) :
    ofChars (first ++ '\n' :: second) = ofChars (first ++ ['\n']) ++ ofChars second := by
  induction first using lineInduction with
  | last line unbroken =>
    rw [ofChars_line unbroken, ofChars_line unbroken, List.cons_append]
    rfl
  | line line rest unbroken ih =>
    rw [List.append_assoc, List.cons_append, ofChars_line unbroken, ih, List.append_assoc,
      List.cons_append, ofChars_line unbroken, List.cons_append]

/-- A line for every line feed before the last character, and one that ends with it. -/
theorem length_ofChars (cs : List Char) (last : Char) :
    (ofChars (cs ++ [last])).length = cs.count '\n' + 1 := by
  induction cs using lineInduction with
  | last line unbroken =>
    rw [List.count_eq_zero_of_not_mem unbroken]
    by_cases ends : last = '\n'
    · rw [ends, ofChars_line unbroken]
      rfl
    · have whole : '\n' ∉ line ++ [last] := by simpa [unbroken] using Ne.symm ends
      rw [ofChars_last whole (by simp)]
      rfl
  | line line rest unbroken ih =>
    have counted : (line ++ '\n' :: rest).count '\n' = rest.count '\n' + 1 := by
      rw [List.count_append, List.count_eq_zero_of_not_mem unbroken, List.count_cons_self, Nat.zero_add]
    rw [List.append_assoc, List.cons_append, ofChars_line unbroken, List.length_cons, ih, counted]

end Input

/-! ## Entries -/

/-- Reading stops at the first line that completes what was typed, and takes the lines
up to it as they are. -/
theorem EntryReading.goOn_entry {scanner : Scanner} {entry : List Char} (nonempty : entry ≠ [])
    (waits : ∀ first second, second ≠ [] → entry = first ++ '\n' :: second →
      ((first ++ ['\n']).foldl Scanner.step scanner).isComplete = false)
    (complete : (entry.foldl Scanner.step scanner).isComplete = true)
    (typed : String) (continued : Nat) (rest : Input) :
    goOn scanner typed continued (Input.ofChars entry ++ rest) =
      { entry := some (typed ++ String.ofList entry)
        continued := continued + (Input.ofChars entry).length - 1, rest } := by
  -- a line that completes the entry is its last one
  have final {line : List Char} {scanner : Scanner} (typed : String) (continued : Nat)
      (complete : (line.foldl Scanner.step scanner).isComplete = true) :
      goOn scanner typed continued (.text (String.ofList line) :: rest) =
        { entry := some (typed ++ String.ofList line), continued, rest } := by
    simp only [goOn, Scanner.feed, String.toList_ofList, complete, if_true]
  induction entry using Input.lineInduction generalizing scanner typed continued with
  | last line unbroken =>
    rw [Input.ofChars_last unbroken nonempty]
    exact final typed continued complete
  | line line others unbroken ih =>
    rw [Input.ofChars_line unbroken]
    by_cases ended : others = []
    · subst ended
      exact final typed continued complete
    · have unfinished := waits line others ended rfl
      have fed : (line ++ ['\n']).foldl Scanner.step scanner =
          scanner.feed (String.ofList (line ++ ['\n'])) := by
        rw [Scanner.feed, String.toList_ofList]
      rw [List.cons_append, goOn]
      simp only [← fed, unfinished]
      have joined : typed ++ String.ofList (line ++ ['\n']) ++ String.ofList others =
          typed ++ String.ofList (line ++ '\n' :: others) := by
        rw [String.append_assoc, ← String.ofList_append, ← List.append_cons]
      rw [if_neg (by decide), ih ended]
      · rw [joined, List.length_cons]
        congr 1
        omega
      · intro first second nonempty same
        have later := waits (line ++ '\n' :: first) second nonempty (by simp [same])
        rwa [List.append_assoc, List.cons_append, List.append_cons, List.foldl_append] at later
      · rwa [List.append_cons, List.foldl_append] at complete

/-! ## Programs -/

namespace Json.Reader

section Bracketed

variable {round : Rounding} {first last : Char} {inner : List Char} {final : State}
  (bracket : first = '[' ∨ first = '{') (visible : isBlank last = false)
  (ran : run round initial (first :: (inner ++ [last])) = some final)

include bracket visible ran

/-- At a line feed inside a bracketed tree the scanner waits for more. -/
theorem waits_inside {before : List Char} (part : before ++ ['\n'] <+: first :: inner) :
    ((before ++ ['\n']).foldl Scanner.step {}).isComplete = false := by
  obtain ⟨second, whole⟩ := part
  obtain ⟨start, begins⟩ : ∃ start, before ++ ['\n'] = first :: start := by
    cases before with
    | nil =>
      obtain ⟨same, _⟩ := List.cons.inj whole
      rcases bracket with rfl | rfl <;> cases same
    | cons c before =>
      obtain ⟨rfl, _⟩ := List.cons.inj whole
      exact ⟨before ++ ['\n'], rfl⟩
  obtain rfl : start ++ second = inner := by
    rw [begins] at whole
    exact (List.cons.inj whole).2
  obtain ⟨next, took, ran⟩ := Option.bind_eq_some_iff.mp ran
  have opened : next.frames ≠ [] := by
    rcases bracket with rfl | rfl <;> cases took <;> exact List.cons_ne_nil _ _
  rw [List.append_assoc] at ran
  obtain ⟨middle, reached, stillOpen⟩ := run_open (step_follows initial_sound took).sound opened visible ran
  have reached : run round initial (before ++ ['\n']) = some middle := by
    rw [begins, run_cons, took]
    exact reached
  obtain ⟨sound, shadow⟩ := run_follows initial_sound reached
  change (before ++ ['\n']).foldl Scanner.step {} = middle.shadow at shadow
  rw [shadow]
  exact sound.waits stillOpen (run_line initial_sound reached)

/-- A bracketed tree is one entry, also with a line feed behind it. -/
theorem readEntry_bracketed (finished : final.frames = [] ∧ final.mode.inString = false)
    {tail : List Char} (ends : tail = [] ∨ tail = ['\n']) (rest : Input) :
    readEntry (Input.ofChars (first :: (inner ++ [last]) ++ tail) ++ rest) =
      { entry := some (String.ofList (first :: (inner ++ [last]) ++ tail))
        continued := (first :: (inner ++ [last])).count '\n', rest } := by
  have notLine : last ≠ '\n' := by
    rintro rfl
    cases visible
  have fed : (first :: (inner ++ [last])).foldl Scanner.step {} = final.shadow :=
    (run_follows initial_sound ran).2
  have complete : final.shadow.isComplete = true := by
    rw [State.shadow_outside finished.2, finished.1]
    rfl
  have waits : ∀ before after, after ≠ [] →
      first :: (inner ++ [last]) ++ tail = before ++ '\n' :: after →
        ((before ++ ['\n']).foldl Scanner.step {}).isComplete = false := by
    intro before after more whole
    refine waits_inside bracket visible ran ?_
    have part : before ++ ['\n'] <+: (first :: inner) ++ [last] := by
      have part : before ++ ['\n'] <+: first :: (inner ++ [last]) ++ tail :=
        ⟨after, by rw [whole, List.append_assoc]; rfl⟩
      rcases ends with rfl | rfl
      · rwa [List.append_nil] at part
      · rcases List.prefix_concat_iff.mp part with same | part
        · rw [← same, List.append_cons _ _ after] at whole
          exact absurd (List.self_eq_append_right.mp whole) more
        · exact part
    rcases List.prefix_concat_iff.mp part with same | part
    · exact absurd (List.append_inj_right' same rfl) (by simpa using Ne.symm notLine)
    · exact part
  have counted : (Input.ofChars (first :: (inner ++ [last]) ++ tail)).length =
      (first :: (inner ++ [last])).count '\n' + 1 := by
    rcases ends with rfl | rfl
    · have lines := Input.length_ofChars (first :: inner) last
      rw [List.append_nil]
      simpa [List.count_cons, notLine] using lines
    · exact Input.length_ofChars (first :: (inner ++ [last])) '\n'
  have complete : ((first :: (inner ++ [last]) ++ tail).foldl Scanner.step {}).isComplete = true := by
    rw [List.foldl_append, fed]
    rcases ends with rfl | rfl
    · exact complete
    · rw [List.foldl_cons, step_plain finished.2 (by decide)]
      exact complete
  rw [readEntry, EntryReading.goOn_entry (by simp) waits complete, counted]
  simp

end Bracketed

end Json.Reader

/-- **A program that is typed is one entry, however many lines it takes.** Whatever text
a reader of trees takes, from its first bracket to its last and however it rounds numbers,
is returned whole with the line feed behind it. Another line is asked for at each line feed
inside, and what follows stays unread. At the end of the input the program alone is the
entry. -/
theorem readEntry_program {round : Json.Reader.Rounding} {body : String} {tree : Json}
    (decoded : Json.readBy round body = .ok tree)
    (bracketed : ∃ inner, body = "[" ++ inner ++ "]" ∨ body = "\x7b" ++ inner ++ "\x7d")
    (rest : String) :
    readEntry (Input.ofText (body ++ "\n" ++ rest)) =
        { entry := some (body ++ "\n"), continued := body.toList.count '\n', rest := Input.ofText rest } ∧
      readEntry (Input.ofText body) =
        { entry := some body, continued := body.toList.count '\n', rest := [] } := by
  obtain ⟨final, ran, finished⟩ := Json.run_of_readBy decoded
  obtain ⟨first, inner, last, bracket, visible, chars⟩ : ∃ first inner last,
      (first = '[' ∨ first = '{') ∧ Json.Reader.isBlank last = false ∧
        body.toList = first :: (inner ++ [last]) := by
    obtain ⟨inner, rfl | rfl⟩ := bracketed
    · exact ⟨'[', inner.toList, ']', .inl rfl, rfl, by simp⟩
    · exact ⟨'{', inner.toList, '}', .inr rfl, rfl, by simp⟩
  have sound := (Json.Reader.run_follows Json.Reader.initial_sound ran).1
  obtain ⟨closed, outside, _⟩ := Json.Reader.finish_closed sound finished
  rw [chars] at ran
  have entry {tail : List Char} (ends : tail = [] ∨ tail = ['\n']) (rest : Input) :=
    Json.Reader.readEntry_bracketed bracket visible ran ⟨closed, outside⟩ ends rest
  simp only [← chars] at entry
  have whole : Input.ofText (body ++ "\n" ++ rest) =
      Input.ofChars (body.toList ++ ['\n']) ++ Input.ofText rest := by
    have lines := Input.ofChars_append body.toList rest.toList
    have joined : body ++ "\n" ++ rest = String.ofList (body.toList ++ '\n' :: rest.toList) := by
      rw [← String.toList_inj]
      simp
    rw [joined]
    simpa [Input.ofChars] using lines
  constructor
  · rw [whole, entry (.inr rfl)]
    congr 2
    rw [← String.toList_inj]
    simp
  · have alone := entry (.inl rfl) []
    simpa [Input.ofChars] using alone

/-- A program over four lines, with brackets, quotes and backslashes in a string. -/
theorem readEntry_program_lines :
    let body := "[\n\"]\\\\\\\"\x7b\",\n[[]\n]]"
    (∃ tree, Json.read body = .ok tree) ∧
      readEntry (Input.ofText (body ++ "\n" ++ "[1]\n")) =
        { entry := some (body ++ "\n"), continued := 3, rest := [.text "[1]\n"] } ∧
      readEntry (Input.ofText body) = { entry := some body, continued := 3, rest := [] } := by
  intro body
  have decoded : Json.read body = .ok (.array [.string "]\\\"\x7b", .array [.array []]]) := by
    unfold body
    rfl
  have counted : body.toList.count '\n' = 3 := by decide
  have lines : Input.ofText "[1]\n" = [.text "[1]\n"] := by decide
  have bracketed : ∃ inner, body = "[" ++ inner ++ "]" ∨ body = "\x7b" ++ inner ++ "\x7d" :=
    ⟨"\n\"]\\\\\\\"\x7b\",\n[[]\n]", .inl (by decide)⟩
  have entry := readEntry_program decoded bracketed "[1]\n"
  rw [counted, lines] at entry
  exact ⟨⟨_, decoded⟩, entry⟩

end StackScript
