/-
# StackScript.Proofs.Flags — depth flags are read from the left

`takeLimit` walks along the arguments by position and takes every depth flag out where
it stands, together with the argument after it. What it does is said without positions
by a `Reading`: the arguments as items, each an argument on its own or a flag with its
value, and perhaps a flag at the end that nothing follows. A value may be any argument,
the flag itself too. Every list of arguments has exactly one reading
(`Reading.written_eq_iff`).

* A value is good if it writes a positive number below `2 ^ 64` (`WritesLimit`): the
  digits of this number, perhaps behind zeros, perhaps behind a plus sign.
* `scanAt` is the walk between what it has kept and what it has not seen. Items with
  good values take it from one such place to another (`scanAt_items`), so it stops only
  at the end of the arguments, at a flag that nothing follows, or at a value that is not good.
-/
import StackScript.Command.Flags
import StackScript.Proofs.Numeral

namespace StackScript.Command

set_option autoImplicit false

/-! ## Depths as they are written -/

/-- The text writes the depth `n`. -/
structure WritesLimit (text : String) (n : ℕ) : Prop where
  positive : 0 < n
  bounded : n < 2 ^ 64
  spelled : ∃ sign zeros, (sign = [] ∨ sign = ['+']) ∧
    text.toList = sign ++ (List.replicate zeros '0' ++ Nat.toDigits 10 n)

theorem readLimit?_eq_some {text : String} {n : ℕ} :
    readLimit? text = some n ↔ WritesLimit text n := by
  rw [readLimit?, Option.filter_eq_some_iff, Number.readWord?_eq_some, decide_eq_true_eq]
  constructor
  · rintro ⟨⟨bounded, spelled⟩, positive⟩
    exact ⟨positive, bounded, spelled⟩
  · rintro ⟨positive, bounded, spelled⟩
    exact ⟨⟨bounded, spelled⟩, positive⟩

theorem readLimit?_eq_none {text : String} (bad : ∀ n, ¬ WritesLimit text n) :
    readLimit? text = none :=
  Option.eq_none_iff_forall_ne_some.mpr fun n found => bad n (readLimit?_eq_some.mp found)

/-! ## Readings -/

/-- A piece of the arguments: one on its own, or a depth flag with the argument after it. -/
inductive Item where
  | plain (arg : String) (apart : arg ≠ "--max-depth")
  | limit (value : String)

namespace Item

def written : Item → List String
  | .plain arg _ => [arg]
  | .limit value => ["--max-depth", value]

def arg? : Item → Option String
  | .plain arg _ => some arg
  | .limit _ => none

def value? : Item → Option String
  | .plain _ _ => none
  | .limit value => some value

end Item

/-- Arguments read from the left. A flag dangles if it stands at the end and is no value. -/
structure Reading where
  items : List Item
  dangling : Bool

namespace Reading

/-- The arguments that are read so. -/
def written (reading : Reading) : List String :=
  reading.items.flatMap Item.written ++ if reading.dangling then ["--max-depth"] else []

/-- The arguments on their own, in order. -/
def plain (reading : Reading) : List String :=
  reading.items.filterMap Item.arg?

/-- The values of the flags, in order. -/
def values (reading : Reading) : List String :=
  reading.items.filterMap Item.value?

def cons (item : Item) (reading : Reading) : Reading :=
  { reading with items := item :: reading.items }

theorem written_cons (item : Item) (reading : Reading) :
    (reading.cons item).written = item.written ++ reading.written := by
  unfold written cons
  rw [List.flatMap_cons, List.append_assoc]

def ofArgs : List String → Reading
  | [] => ⟨[], false⟩
  | [arg] => if flag : arg = "--max-depth" then ⟨[], true⟩ else ⟨[.plain arg flag], false⟩
  | arg :: next :: rest =>
    if flag : arg = "--max-depth" then (ofArgs rest).cons (.limit next)
    else (ofArgs (next :: rest)).cons (.plain arg flag)

theorem ofArgs_plain {arg : String} (apart : arg ≠ "--max-depth") (rest : List String) :
    ofArgs (arg :: rest) = (ofArgs rest).cons (.plain arg apart) := by
  cases rest with
  | nil => simp [ofArgs, apart, cons]
  | cons next rest => simp [ofArgs, apart]

theorem ofArgs_limit (value : String) (rest : List String) :
    ofArgs ("--max-depth" :: value :: rest) = (ofArgs rest).cons (.limit value) := by
  simp [ofArgs]

theorem written_ofArgs (args : List String) : (ofArgs args).written = args := by
  fun_induction ofArgs args with
  | case1 => rfl
  | case2 => simp [written]
  | case3 arg apart => rfl
  | case4 next rest ih => simp [written_cons, Item.written, ih]
  | case5 arg next rest apart ih => simp [written_cons, Item.written, ih]

theorem ofArgs_written (reading : Reading) : ofArgs reading.written = reading := by
  obtain ⟨items, dangling⟩ := reading
  induction items with
  | nil => cases dangling <;> simp [written, ofArgs]
  | cons item items ih =>
    change ofArgs (written (cons item ⟨items, dangling⟩)) = cons item ⟨items, dangling⟩
    rw [written_cons]
    cases item with
    | plain arg apart => rw [Item.written, List.singleton_append, ofArgs_plain apart, ih]
    | limit value =>
      rw [Item.written, List.cons_append, List.singleton_append, ofArgs_limit, ih]

/-- Arguments are read in one way only. -/
theorem written_eq_iff {reading : Reading} {args : List String} :
    reading.written = args ↔ reading = ofArgs args := by
  constructor
  · rintro rfl
    exact (ofArgs_written reading).symm
  · rintro rfl
    exact written_ofArgs args

end Reading

/-! ## The scan -/

/-- The scan between the arguments it has kept and those it has not seen. -/
def scanAt (limit : ℕ) (kept rest : List String) : Except LimitMisuse (ℕ × List String) :=
  takeLimitFrom limit (kept ++ rest) kept.length

section Scan

variable (limit : ℕ) (kept : List String)

theorem scanAt_nil : scanAt limit kept [] = .ok (limit, kept) := by
  unfold scanAt takeLimitFrom
  simp

theorem scanAt_dangling : scanAt limit kept ["--max-depth"] = .error .missing := by
  unfold scanAt takeLimitFrom
  simp [limitFlag]

theorem scanAt_plain {arg : String} (apart : arg ≠ "--max-depth") (rest : List String) :
    scanAt limit kept (arg :: rest) = scanAt limit (kept ++ [arg]) rest := by
  unfold scanAt
  rw [takeLimitFrom]
  simp [limitFlag, apart]

/-- A flag and its value are taken out, and the scan stays where it is. -/
theorem scanAt_limit {value : String} {number : ℕ} (good : WritesLimit value number)
    (rest : List String) :
    scanAt limit kept ("--max-depth" :: value :: rest) = scanAt number kept rest := by
  have taken : ((kept ++ "--max-depth" :: value :: rest).eraseIdx (kept.length + 1)).eraseIdx
      kept.length = kept ++ rest := by
    simp [List.eraseIdx_append_of_length_le]
  unfold scanAt
  rw [takeLimitFrom]
  simp [limitFlag, taken, readLimit?_eq_some.mpr good]

theorem scanAt_invalid {value : String} (bad : ∀ n, ¬ WritesLimit value n) (rest : List String) :
    scanAt limit kept ("--max-depth" :: value :: rest) = .error .invalid := by
  unfold scanAt takeLimitFrom
  simp [limitFlag, readLimit?_eq_none bad]

/-- Items with good values are passed over: the arguments on their own are kept, and the
last value sets the depth. -/
theorem scanAt_items {items : List Item} {numbers : List ℕ}
    (good : List.Forall₂ WritesLimit (items.filterMap Item.value?) numbers) (rest : List String) :
    scanAt limit kept (items.flatMap Item.written ++ rest) =
      scanAt (numbers.getLastD limit) (kept ++ items.filterMap Item.arg?) rest := by
  -- the place of the scan is the length of what it has kept, so both move on together
  induction items generalizing limit kept numbers with
  | nil =>
    cases good
    simp
  | cons item items ih =>
    cases item with
    | plain arg apart =>
      simp only [List.flatMap_cons, Item.written, List.cons_append, List.nil_append]
      rw [scanAt_plain limit kept apart, ih limit (kept ++ [arg]) good]
      simp [Item.arg?]
    | limit value =>
      cases good with
      | @cons _ number _ numbers first good =>
        simp only [List.flatMap_cons, Item.written, List.cons_append, List.nil_append]
        rw [scanAt_limit limit kept first, List.getLastD_cons]
        exact ih number kept good

end Scan

/-! ## What comes of a reading -/

theorem writes_of_mem {values : List String} {numbers : List ℕ}
    (good : List.Forall₂ WritesLimit values numbers) {value : String} (member : value ∈ values) :
    ∃ n, WritesLimit value n := by
  induction good with
  | nil => cases member
  | cons first _ ih =>
    rcases List.mem_cons.mp member with rfl | later
    · exact ⟨_, first⟩
    · exact ih later

/-- All values are good, or there is a first one that is not. -/
theorem values_good_or (items : List Item) :
    (∃ numbers, List.Forall₂ WritesLimit (items.filterMap Item.value?) numbers) ∨
      ∃ before value after numbers, items = before ++ .limit value :: after ∧
        List.Forall₂ WritesLimit (before.filterMap Item.value?) numbers ∧
        ∀ n, ¬ WritesLimit value n := by
  induction items with
  | nil => exact .inl ⟨[], .nil⟩
  | cons item items ih =>
    cases item with
    | plain arg apart =>
      rcases ih with ⟨numbers, good⟩ | ⟨before, value, after, numbers, rfl, good, bad⟩
      · exact .inl ⟨numbers, good⟩
      · exact .inr ⟨.plain arg apart :: before, value, after, numbers, rfl, good, bad⟩
    | limit value =>
      by_cases first : ∃ n, WritesLimit value n
      · obtain ⟨n, first⟩ := first
        rcases ih with ⟨numbers, good⟩ | ⟨before, later, after, numbers, rfl, good, bad⟩
        · exact .inl ⟨n :: numbers, .cons first good⟩
        · exact .inr ⟨.limit value :: before, later, after, n :: numbers, rfl, .cons first good, bad⟩
      · exact .inr ⟨[], value, items, [], rfl, .nil, not_exists.mp first⟩

namespace Reading

variable {reading : Reading} {numbers : List ℕ}

theorem takeLimit_kept (closed : reading.dangling = false)
    (good : List.Forall₂ WritesLimit reading.values numbers) :
    takeLimit reading.written = .ok (numbers.getLastD defaultLimit, reading.plain) := by
  have passed := scanAt_items defaultLimit [] good []
  rw [scanAt_nil] at passed
  rw [written, closed]
  exact passed

theorem takeLimit_missing (dangling : reading.dangling = true)
    (good : List.Forall₂ WritesLimit reading.values numbers) :
    takeLimit reading.written = .error .missing := by
  have passed := scanAt_items defaultLimit [] good ["--max-depth"]
  rw [scanAt_dangling] at passed
  rw [written, dangling]
  exact passed

theorem takeLimit_invalid {value : String} (member : value ∈ reading.values)
    (bad : ∀ n, ¬ WritesLimit value n) : takeLimit reading.written = .error .invalid := by
  rcases values_good_or reading.items with
    ⟨numbers, good⟩ | ⟨before, first, after, numbers, whole, good, firstBad⟩
  · obtain ⟨n, writes⟩ := writes_of_mem good member
    exact absurd writes (bad n)
  · -- the scan reaches the first value that is not good, whatever stands behind it
    have split : reading.written = before.flatMap Item.written ++
        "--max-depth" :: first :: written ⟨after, reading.dangling⟩ := by
      simp [written, whole, Item.written]
    have passed := scanAt_items defaultLimit [] good
      ("--max-depth" :: first :: written ⟨after, reading.dangling⟩)
    rw [scanAt_invalid _ _ firstBad, ← split] at passed
    exact passed

/-- A reading's values are all good, or one is not. -/
theorem good_or_bad (reading : Reading) :
    (∃ numbers, List.Forall₂ WritesLimit reading.values numbers) ∨
      ∃ value ∈ reading.values, ∀ n, ¬ WritesLimit value n := by
  rcases values_good_or reading.items with good | ⟨before, value, after, _, whole, _, bad⟩
  · exact .inl good
  · exact .inr ⟨value, by simp [values, whole, Item.value?], bad⟩

end Reading

/-- Depth flags are read from the left. The arguments have one reading. The scan fails exactly
if in this reading a flag is left without a value or has one that is not good; otherwise the
last value is the depth, and what is kept are the arguments on their own, in their order. -/
theorem takeLimit_reading (args : List String) :
    ∃ reading : Reading, (∀ other : Reading, other.written = args ↔ other = reading) ∧
      ((∃ misuse, takeLimit args = .error misuse) ↔
        reading.dangling = true ∨ ∃ value ∈ reading.values, ∀ n, ¬ WritesLimit value n) ∧
      ∀ limit kept, takeLimit args = .ok (limit, kept) ↔
        reading.dangling = false ∧
        (∃ numbers, List.Forall₂ WritesLimit reading.values numbers ∧
          limit = numbers.getLastD 256) ∧
        kept = reading.plain := by
  have whole := Reading.written_ofArgs args
  refine ⟨.ofArgs args, fun other => Reading.written_eq_iff, ?_⟩
  generalize Reading.ofArgs args = reading at whole
  subst whole
  refine ⟨⟨?_, ?_⟩, fun limit kept => ⟨?_, ?_⟩⟩
  · rintro ⟨misuse, failed⟩
    rcases reading.good_or_bad with ⟨numbers, good⟩ | bad
    · cases dangling : reading.dangling with
      | true => exact .inl rfl
      | false =>
        rw [Reading.takeLimit_kept dangling good] at failed
        cases failed
    · exact .inr bad
  · rintro (dangling | ⟨value, member, bad⟩)
    · rcases reading.good_or_bad with ⟨numbers, good⟩ | ⟨value, member, bad⟩
      · exact ⟨.missing, Reading.takeLimit_missing dangling good⟩
      · exact ⟨.invalid, Reading.takeLimit_invalid member bad⟩
    · exact ⟨.invalid, Reading.takeLimit_invalid member bad⟩
  · intro taken
    rcases reading.good_or_bad with ⟨numbers, good⟩ | ⟨value, member, bad⟩
    · cases dangling : reading.dangling with
      | true =>
        rw [Reading.takeLimit_missing dangling good] at taken
        cases taken
      | false =>
        rw [Reading.takeLimit_kept dangling good] at taken
        cases taken
        exact ⟨rfl, ⟨numbers, good, rfl⟩, rfl⟩
    · rw [Reading.takeLimit_invalid member bad] at taken
      cases taken
  · rintro ⟨closed, ⟨numbers, good, rfl⟩, rfl⟩
    exact Reading.takeLimit_kept closed good

/-- Flags side by side, one at the end, and a later depth below an earlier one. -/
example : takeLimit ["--max-depth", "9", "--max-depth", "+012", "p.json", "--max-depth", "7"] =
    .ok (7, ["p.json"]) := by
  decide +kernel

end StackScript.Command
