/-
# StackScript.Proofs.Partition — a text is its entries, one after the other

Whoever types at a session types lines, and `readEntry` takes lines until its scanner is
complete. Called until it finds nothing (`ReadsOut`), it takes every line of a text once
and in order (`readEntries_partition`). An entry ends at the first line that completes
it, counted by a scanner that is new for every entry; only the last entry may be
incomplete, and only because the lines have run out. Another line is asked for after
each line that did not complete the entry.

One reading stops in one of two ways (`EntryReading.Reads`, with `goOn_reads` for the
loop), and the whole text follows by induction on the readings.

The scanner counts brackets in 32 bits. What complete means for a text of any length is
`Scanner.completes_unquoted`: outside strings the count is right up to a multiple of `2 ^ 32`.
-/
import StackScript.Proofs.Entry

namespace StackScript

set_option autoImplicit false

/-! ## Lines -/

namespace Input

/-- Lines as a text has them: each ends at its first line feed, and the last one may lack it. -/
inductive AreLines : List String → Prop
  | none : AreLines []
  | last {line : List Char} (unbroken : '\n' ∉ line) (nonempty : line ≠ []) :
      AreLines [String.ofList line]
  | line {line : List Char} {rest : List String} (unbroken : '\n' ∉ line) (more : AreLines rest) :
      AreLines (String.ofList (line ++ ['\n']) :: rest)

theorem areLines_lines (text : String) : AreLines (lines text) := by
  rw [lines]
  generalize text.toList = cs
  induction cs using lineInduction with
  | last line unbroken =>
    by_cases empty : line = []
    · rw [empty]
      exact .none
    · rw [cut_last unbroken empty]
      exact .last unbroken empty
  | line line rest unbroken ih =>
    rw [cut_line unbroken]
    exact .line unbroken ih

/-- A text is its lines. -/
theorem join_lines (text : String) : String.join (lines text) = text := by
  suffices ∀ cs, (cut '\n' cs).flatten = cs by
    rw [← String.toList_inj, String.toList_join, lines, List.flatMap_map]
    simpa [List.flatMap_id'] using this text.toList
  intro cs
  induction cs using lineInduction with
  | last line unbroken =>
    by_cases empty : line = []
    · rw [empty]
      rfl
    · rw [cut_last unbroken empty, List.flatten_singleton]
  | line line rest unbroken ih =>
    rw [cut_line unbroken, List.flatten_cons, ih, List.append_assoc]
    rfl

namespace AreLines

variable {first second : List String}

/-- Lines that are put together come apart again. -/
theorem lines_join {pieces : List String} (areLines : AreLines pieces) :
    lines (String.join pieces) = pieces := by
  induction areLines with
  | none => rfl
  | last unbroken nonempty =>
    rw [lines, String.join_cons, String.join_nil, String.append_empty, String.toList_ofList,
      cut_last unbroken nonempty]
    rfl
  | @line line rest unbroken _ ih =>
    have whole : (String.join (String.ofList (line ++ ['\n']) :: rest)).toList =
        line ++ '\n' :: (String.join rest).toList := by
      rw [String.join_cons, String.toList_append, String.toList_ofList, List.append_assoc]
      rfl
    rw [lines, whole, cut_line unbroken, List.map_cons, ← lines, ih]

theorem parts (areLines : AreLines (first ++ second)) : AreLines first ∧ AreLines second := by
  generalize whole : first ++ second = pieces at areLines
  induction areLines generalizing first with
  | none =>
    obtain ⟨rfl, rfl⟩ := List.append_eq_nil_iff.mp whole
    exact ⟨.none, .none⟩
  | last unbroken nonempty =>
    rcases List.append_eq_singleton_iff.mp whole with ⟨rfl, rfl⟩ | ⟨rfl, rfl⟩
    · exact ⟨.none, .last unbroken nonempty⟩
    · exact ⟨.last unbroken nonempty, .none⟩
  | line unbroken more ih =>
    rcases List.append_eq_cons_iff.mp whole with ⟨rfl, rfl⟩ | ⟨others, rfl, same⟩
    · exact ⟨.none, .line unbroken more⟩
    · obtain ⟨before, after⟩ := ih same.symm
      exact ⟨.line unbroken before, after⟩

/-- No line is empty. -/
theorem eq_nil_of_join {pieces : List String} (areLines : AreLines pieces)
    (empty : String.join pieces = "") : pieces = [] := by
  have again := areLines.lines_join
  rw [empty] at again
  exact again.symm

end AreLines

end Input

/-! ## One reading -/

namespace Scanner

theorem feed_append (scanner : Scanner) (first second : String) :
    scanner.feed (first ++ second) = (scanner.feed first).feed second := by
  rw [feed, String.toList_append, List.foldl_append]
  rfl

/-- Whether a new scanner is complete after the text. -/
def completes (text : String) : Bool :=
  (({} : Scanner).feed text).isComplete

/-- By how many the opening brackets outnumber the closing ones. -/
def surplus (cs : List Char) : Int :=
  cs.countP (fun c => c = '{' ∨ c = '[') - cs.countP (fun c => c = '}' ∨ c = ']')

theorem step_unquoted {scanner : Scanner} (outside : scanner.inString = false) {c : Char}
    (unquoted : c ≠ '"') :
    scanner.step c = { scanner with depth := scanner.depth + Int32.ofInt (surplus [c]) } := by
  obtain ⟨depth, inString, escaped⟩ := scanner
  obtain rfl : inString = false := outside
  unfold step surplus
  by_cases opens : c = '{' ∨ c = '['
  · rcases opens with rfl | rfl <;> rfl
  by_cases closes : c = '}' ∨ c = ']'
  · rcases closes with rfl | rfl <;> simp [Int32.sub_eq_add_neg]
  · simp [unquoted, opens, closes]

theorem foldl_unquoted {scanner : Scanner} (outside : scanner.inString = false) {cs : List Char}
    (unquoted : '"' ∉ cs) :
    cs.foldl step scanner = { scanner with depth := scanner.depth + Int32.ofInt (surplus cs) } := by
  induction cs generalizing scanner with
  | nil => simp [surplus]
  | cons c cs ih =>
    have split : surplus (c :: cs) = surplus [c] + surplus cs := by
      simp only [surplus, List.countP_cons, List.countP_nil]
      omega
    rw [List.mem_cons, not_or] at unquoted
    rw [List.foldl_cons, step_unquoted outside (Ne.symm unquoted.1), split, Int32.ofInt_add,
      ← Int32.add_assoc]
    exact ih outside unquoted.2

/-- Without strings, an entry is complete when its surplus is not positive, read as a number of
32 bits: `2 ^ 31` brackets that are all open complete an entry too. -/
theorem completes_unquoted {text : String} (unquoted : '"' ∉ text.toList) :
    completes text = true ↔ (surplus text.toList).bmod Int32.size ≤ 0 := by
  have fed := @foldl_unquoted {} rfl _ unquoted
  have counted : (({} : Scanner).feed text).depth = Int32.ofInt (surplus text.toList) := by
    rw [feed, fed, Int32.zero_add]
  have outside : (({} : Scanner).feed text).inString = false := by rw [feed, fed]
  rw [completes, isComplete, outside, Bool.or_false, decide_eq_true_eq, counted,
    Int32.le_iff_toInt_le, Int32.toInt_ofInt]
  rfl

/-- The scanner waits for more after each of the lines but the last. -/
def Waits (scanner : Scanner) (lines : List String) : Prop :=
  ∀ first second, first ≠ [] → second ≠ [] → first ++ second = lines →
    (scanner.feed (String.join first)).isComplete = false

theorem waits_single (scanner : Scanner) (line : String) : scanner.Waits [line] := by
  intro first second some more whole
  rcases List.append_eq_singleton_iff.mp whole with ⟨none, _⟩ | ⟨_, none⟩
  · exact absurd none some
  · exact absurd none more

theorem Waits.cons {scanner : Scanner} {line : String} {lines : List String}
    (incomplete : (scanner.feed line).isComplete = false) (waits : (scanner.feed line).Waits lines) :
    scanner.Waits (line :: lines) := by
  intro first second some more whole
  cases first with
  | nil => exact absurd rfl some
  | cons piece first =>
    obtain ⟨rfl, rest⟩ := List.cons.inj whole
    rw [String.join_cons, feed_append]
    by_cases none : first = []
    · rw [none]
      exact incomplete
    · exact waits first second none more rest

end Scanner

namespace EntryReading

/-- How a reading of lines ends, after the text `typed`: with a line that completes the entry, or
with the last line. -/
inductive Reads (scanner : Scanner) (typed : String) (continued : Nat) (lines : List String) :
    EntryReading → Prop
  | completed {taken rest : List String} (whole : taken ++ rest = lines) (some : taken ≠ [])
      (waits : scanner.Waits taken)
      (complete : (scanner.feed (String.join taken)).isComplete = true) :
      Reads scanner typed continued lines
        { entry := typed ++ String.join taken, continued := continued + (taken.length - 1)
          rest := rest.map .text }
  | starved (waits : scanner.Waits lines)
      (incomplete : lines ≠ [] → (scanner.feed (String.join lines)).isComplete = false) :
      Reads scanner typed continued lines
        { entry := if (typed ++ String.join lines).isEmpty then none else typed ++ String.join lines
          continued := continued + lines.length, starved := true, rest := [] }

theorem goOn_reads (scanner : Scanner) (typed : String) (continued : Nat) (lines : List String) :
    Reads scanner typed continued lines (goOn scanner typed continued (lines.map .text)) := by
  induction lines generalizing scanner typed continued with
  | nil =>
    have waits : scanner.Waits [] := by
      intro first second some _ whole
      exact absurd (List.append_eq_nil_iff.mp whole).1 some
    have ended : Reads scanner typed continued [] _ := .starved waits fun none => absurd rfl none
    simpa [goOn] using ended
  | cons line lines ih =>
    rw [List.map_cons, goOn]
    cases complete : (scanner.feed line).isComplete with
    | true =>
      have whole : [line] ++ lines = line :: lines := rfl
      have ended : Reads scanner typed continued (line :: lines) _ :=
        .completed whole (List.cons_ne_nil line []) (scanner.waits_single line)
          (by rwa [String.join_cons, String.join_nil, String.append_empty])
      simpa using ended
    | false =>
      have later := ih (scanner.feed line) (typed ++ line) (continued + 1)
      simp only [Bool.false_eq_true, if_false]
      generalize goOn (scanner.feed line) (typed ++ line) (continued + 1) (lines.map .text) = reading
        at later
      cases later with
      | @completed taken rest whole some waits ends =>
        have counted : continued + 1 + (taken.length - 1) = continued + ((line :: taken).length - 1) := by
          have := List.length_pos_iff.mpr some
          rw [List.length_cons]
          omega
        rw [counted, String.append_assoc, ← String.join_cons]
        refine .completed (by rw [List.cons_append, whole]) (List.cons_ne_nil line taken)
          (waits.cons complete) ?_
        rwa [String.join_cons, Scanner.feed_append]
      | starved waits incomplete =>
        have counted : continued + 1 + lines.length = continued + (line :: lines).length := by
          rw [List.length_cons]
          omega
        rw [counted, String.append_assoc, ← String.join_cons]
        refine .starved (waits.cons complete) fun _ => ?_
        rw [String.join_cons, Scanner.feed_append]
        by_cases none : lines = []
        · rw [none]
          exact complete
        · exact incomplete none

theorem goOn_rest (scanner : Scanner) (typed : String) (continued : Nat) (input : Input) :
    (goOn scanner typed continued input).rest.length ≤ input.length := by
  induction input generalizing scanner typed continued with
  | nil => exact Nat.le_refl _
  | cons line rest ih =>
    cases line with
    | unreadable => exact Nat.le_succ _
    | text line =>
      rw [goOn]
      cases complete : (scanner.feed line).isComplete with
      | true => simp
      | false =>
        have shorter := ih (scanner.feed line) (typed ++ line) (continued + 1)
        simp only [Bool.false_eq_true, if_false, List.length_cons]
        omega

end EntryReading

/-- A reading that finds an entry takes a line. -/
theorem readEntry_rest {input : Input} {entry : String} (found : (readEntry input).entry = some entry) :
    (readEntry input).rest.length < input.length := by
  cases input with
  | nil => cases found
  | cons line rest =>
    cases line with
    | unreadable => cases found
    | text line =>
      rw [readEntry, EntryReading.goOn, List.length_cons]
      cases complete : (({} : Scanner).feed line).isComplete with
      | true => simp
      | false =>
        have shorter := EntryReading.goOn_rest (({} : Scanner).feed line) ("" ++ line) (0 + 1) rest
        simp only [Bool.false_eq_true, if_false]
        omega

/-! ## All readings -/

/-- Readings one after the other until one finds no entry: the entries, each with how often
another line was asked for, and how often the last reading asked. -/
inductive ReadsOut : Input → List (String × Nat) → Nat → Prop
  | ends {input : Input} (nothing : (readEntry input).entry = none) :
      ReadsOut input [] (readEntry input).continued
  | goesOn {input : Input} {entry : String} {entries : List (String × Nat)} {final : Nat}
      (found : (readEntry input).entry = some entry)
      (more : ReadsOut (readEntry input).rest entries final) :
      ReadsOut input ((entry, (readEntry input).continued) :: entries) final

section Go

variable {lines : Nat} {found : List (String × Nat)} {input : Input}

theorem readEntries.go_ends (nothing : (readEntry input).entry = none) :
    readEntries.go lines found input = (found.reverse, (readEntry input).continued) := by
  unfold readEntries.go
  generalize readEntry input = reading at nothing ⊢
  obtain ⟨_ | _, _, _, _⟩ := reading
  · cases lines <;> rfl
  · cases nothing

theorem readEntries.go_goesOn {entry : String} (reading : (readEntry input).entry = some entry) :
    readEntries.go (lines + 1) found input =
      readEntries.go lines ((entry, (readEntry input).continued) :: found) (readEntry input).rest := by
  conv => lhs; unfold readEntries.go
  generalize readEntry input = taken at reading ⊢
  obtain ⟨_ | _, _, _, _⟩ := taken <;> cases reading
  rfl

end Go

/-- Every entry takes a line, so the readings come to an end before the lines are counted out. -/
theorem readEntries.go_readsOut (lines : Nat) (found : List (String × Nat)) (input : Input)
    (enough : input.length ≤ lines) :
    ∃ entries final, ReadsOut input entries final ∧
      readEntries.go lines found input = (found.reverse ++ entries, final) := by
  induction lines generalizing found input with
  | zero =>
    obtain rfl : input = [] := List.length_eq_zero_iff.mp (Nat.le_zero.mp enough)
    exact ⟨[], 0, .ends rfl, by rw [List.append_nil]; rfl⟩
  | succ lines ih =>
    cases reading : (readEntry input).entry with
    | none => exact ⟨[], _, .ends reading, by rw [List.append_nil, go_ends reading]⟩
    | some entry =>
      have shorter := readEntry_rest reading
      obtain ⟨entries, final, more, went⟩ :=
        ih ((entry, (readEntry input).continued) :: found) (readEntry input).rest (by omega)
      refine ⟨_, final, .goesOn reading more, ?_⟩
      rw [go_goesOn reading, went, List.reverse_cons, List.append_assoc]
      rfl

theorem readEntries_readsOut (input : Input) :
    ReadsOut input (readEntries input).1 (readEntries input).2 := by
  obtain ⟨entries, final, readings, went⟩ := readEntries.go_readsOut input.length [] input (Nat.le_refl _)
  have same : readEntries input = (entries, final) := went
  rwa [same]

/-- What is promised of an entry. Only the last one may be incomplete. -/
structure IsEntry (entry : String) (continued : Nat) (last : Prop) : Prop where
  nonempty : entry ≠ ""
  waits : ({} : Scanner).Waits (Input.lines entry)
  complete : ¬ last → Scanner.completes entry = true
  continued_eq : continued =
    if Scanner.completes entry then (Input.lines entry).length - 1 else (Input.lines entry).length

/-- One reading of the lines of a text. -/
theorem readEntry_lines {lines : List String} (areLines : Input.AreLines lines) :
    (lines = [] ∧ (readEntry (lines.map .text)).entry = none ∧
        (readEntry (lines.map .text)).continued = 0) ∨
      ∃ entry rest, (readEntry (lines.map .text)).entry = some entry ∧
        (readEntry (lines.map .text)).rest = rest.map .text ∧ Input.lines entry ++ rest = lines ∧
        IsEntry entry (readEntry (lines.map .text)).continued (rest = []) := by
  have reads := EntryReading.goOn_reads {} "" 0 lines
  rw [← readEntry] at reads
  generalize readEntry (lines.map .text) = reading at reads ⊢
  cases reads with
  | @completed taken rest whole some waits complete =>
    right
    have taken_lines := (Input.AreLines.parts (whole ▸ areLines)).1
    have again := taken_lines.lines_join
    refine ⟨String.join taken, rest, ?_, rfl, by rw [again, whole], ?_, ?_, fun _ => complete, ?_⟩
    · rw [String.empty_append]
    · exact fun empty => some (taken_lines.eq_nil_of_join empty)
    · rwa [again]
    · have finished : Scanner.completes (String.join taken) = true := complete
      rw [again, if_pos finished, Nat.zero_add]
  | starved waits incomplete =>
    by_cases none : lines = []
    · subst none
      exact .inl ⟨rfl, rfl, rfl⟩
    · right
      have again := areLines.lines_join
      have nonempty : String.join lines ≠ "" := fun empty => none (areLines.eq_nil_of_join empty)
      have unfinished : Scanner.completes (String.join lines) = false := incomplete none
      refine ⟨String.join lines, [], ?_, rfl, by rw [again, List.append_nil], nonempty, ?_,
        fun more => absurd rfl more, ?_⟩
      · simp [nonempty]
      · rwa [again]
      · simp [again, unfinished]

/-- All readings of the lines of a text. -/
theorem ReadsOut.partition {lines : List String} (areLines : Input.AreLines lines)
    {entries : List (String × Nat)} {final : Nat} (readings : ReadsOut (lines.map .text) entries final) :
    entries.flatMap (fun entry => Input.lines entry.1) = lines ∧ final = 0 ∧
      ∀ before entry continued after, entries = before ++ (entry, continued) :: after →
        IsEntry entry continued (after = []) := by
  generalize read : lines.map Line.text = input at readings
  induction readings generalizing lines with
  | ends nothing =>
    subst read
    rcases readEntry_lines areLines with ⟨none, _, zero⟩ | ⟨_, _, found, _⟩
    · refine ⟨none.symm, zero, ?_⟩
      intro before entry continued after split
      simp at split
    · rw [found] at nothing
      cases nothing
  | @goesOn _ entry entries final found more ih =>
    subst read
    rcases readEntry_lines areLines with ⟨_, nothing, _⟩ | ⟨_, rest, same, left, whole, isEntry⟩
    · rw [found] at nothing
      cases nothing
    · cases found.symm.trans same
      have rest_lines := (Input.AreLines.parts (whole ▸ areLines)).2
      obtain ⟨flat, zero, each⟩ := ih rest_lines left.symm
      refine ⟨by rw [List.flatMap_cons, flat, whole], zero, ?_⟩
      intro before other continued after split
      cases before with
      | nil =>
        cases split
        -- when no entry follows, no line does
        refine { isEntry with complete := fun following => isEntry.complete fun nothing => ?_ }
        rw [left, nothing, List.map_nil] at more
        cases more with
        | ends _ => exact following rfl
        | goesOn found _ => cases found
      | cons first before => exact each before other continued after (List.cons.inj split).2

/-- **A text is its entries, one after the other.** The text arrives as bytes and is read until a
reading finds no entry. The entries put together are the text, and their lines are its lines, so that
no line is split. No entry is empty, and no lines at the beginning of one complete a scanner, short of
the whole. Every entry but the last does complete it. After each of its lines but the last, another
line was asked for, and after the last as well if that did not complete the entry. The reading that
finds none asks for nothing. -/
theorem readEntries_partition (text : String) :
    let input := Input.ofBytes text.toUTF8.data.toList
    let entries := (readEntries input).1
    let final := (readEntries input).2
    ReadsOut input entries final ∧ String.join (entries.map Prod.fst) = text ∧
      entries.flatMap (fun entry => Input.lines entry.1) = Input.lines text ∧ final = 0 ∧
      ∀ before entry continued after, entries = before ++ (entry, continued) :: after →
        entry ≠ "" ∧
        (∀ first second, first ≠ [] → second ≠ [] → first ++ second = Input.lines entry →
          Scanner.completes (String.join first) = false) ∧
        (after ≠ [] → Scanner.completes entry = true) ∧
        continued = if Scanner.completes entry then (Input.lines entry).length - 1
          else (Input.lines entry).length := by
  intro input entries final
  have readings : ReadsOut input entries final := readEntries_readsOut input
  have read : input = (Input.lines text).map .text := Input.ofBytes_text text
  obtain ⟨flat, zero, each⟩ := ReadsOut.partition (Input.areLines_lines text) (read ▸ readings)
  refine ⟨readings, ?_, flat, zero, ?_⟩
  · have joined (entries : List (String × Nat)) :
        String.join (entries.flatMap fun entry => Input.lines entry.1) =
          String.join (entries.map Prod.fst) := by
      induction entries with
      | nil => rfl
      | cons entry entries ih =>
        rw [List.flatMap_cons, String.join_append, ih, Input.join_lines, List.map_cons, String.join_cons]
    rw [← joined, flat, Input.join_lines]
  · intro before entry continued after split
    obtain ⟨nonempty, waits, complete, counted⟩ := each before entry continued after split
    exact ⟨nonempty, waits, complete, counted⟩

/-- A closing bracket too many, a string that its line cuts off, and brackets left open at the end. -/
example :
    readEntries (Input.ofText "]\n[\n\"]\n[1,\n2") =
      ([("]\n", 0), ("[\n\"]\n", 1), ("[1,\n2", 2)], 0) := by
  decide +kernel

end StackScript
