/-
# StackScript.Proofs.Token — the token reader accepts exactly the grammar

Five kinds of tokens are tried in turn, and each reading splits, strips and tests
the characters of a text. Here each reading is inverted on its own: a reader gives a
segment, a path or a control exactly where the text is the one it is written as
(`Segment.ofChars?_iff`, `Path.ofChars?_iff`, `Control.ofMarked?_iff`). The order in
which they are tried only matters for `-`, which is an operator and also a name. The
others differ in their first character, so that a text is read as at most one token
(`Token.read_exact`).
-/
import StackScript.Proofs.Session

namespace StackScript

set_option autoImplicit false

/-! ## The grammar -/

/-- A name has at least one character, and only lower-case letters and hyphens. -/
structure WellNamed (name : String) : Prop where
  nonempty : name ≠ ""
  chars : ∀ c ∈ name.toList, ('a' ≤ c ∧ c ≤ 'z') ∨ c = '-'

def Segment.WellFormed : Segment → Prop
  | .position digits => digits ≠ "" ∧ ∀ c ∈ digits.toList, '0' ≤ c ∧ c ≤ '9'
  | .reference name => WellNamed name
  | .key name => WellNamed name
  | .top => True

structure Path.WellFormed (path : Path) : Prop where
  name : WellNamed path.name
  segments : ∀ segment ∈ path.segments, segment.WellFormed

def Token.WellFormed : Token → Prop
  | .push path => path.WellFormed
  | .pop path => path.WellFormed
  | .method path => path.WellFormed ∧ path.segments ≠ []
  | .call name => WellNamed name ∧ name ≠ "-"
  | .control _ => True

/-- The text writes the token: as the token prints, or with `~` before a control word. -/
def Token.Spelled (token : Token) (text : String) : Prop :=
  text = token.text ∨ ∃ op word, token = .control op ∧ op.word? = some word ∧ text = "~" ++ word

/-! ## Characters -/

theorem dropLead?_iff {lead : Char} {cs rest : List Char} :
    dropLead? lead cs = some rest ↔ cs = lead :: rest := by
  cases cs with
  | nil => simp [dropLead?]
  | cons c cs => simp only [dropLead?, Option.ite_none_right_eq_some, Option.some.injEq, List.cons.injEq]

theorem dropLead?_none {lead : Char} {cs : List Char} :
    dropLead? lead cs = none ↔ cs.head? ≠ some lead := by
  cases cs with
  | nil => simp [dropLead?]
  | cons c cs => simp [dropLead?]

theorem wellNamed_iff {name : String} : WellNamed name ↔ isName name = true := by
  rw [isName_iff]
  exact ⟨fun named => ⟨named.nonempty, named.chars⟩, fun ⟨nonempty, chars⟩ => ⟨nonempty, chars⟩⟩

theorem isDigit_iff {c : Char} : c.isDigit = true ↔ '0' ≤ c ∧ c ≤ '9' := by
  simp [Char.isDigit, Char.le_def]

/-- A name starts with a letter or a hyphen. -/
theorem isName_head {name : String} (named : isName name = true) :
    ∃ c rest, name.toList = c :: rest ∧ isNameChar c = true := by
  unfold isName at named
  cases chars : name.toList with
  | nil => simp [chars, isNameChars] at named
  | cons c rest =>
    rw [chars] at named
    simp only [isNameChars, Bool.and_eq_true, List.all_cons] at named
    exact ⟨c, rest, rfl, named.2.1⟩

/-- What is no letter and no hyphen is not in a name. -/
theorem not_mem_name {name : String} (named : isName name = true) {c : Char}
    (other : isNameChar c = false) : c ∉ name.toList := by
  intro member
  unfold isName isNameChars at named
  rw [Bool.and_eq_true, List.all_eq_true] at named
  rw [named.2 c member] at other
  cases other

theorem isName_ofList {cs : List Char} : isName (String.ofList cs) = isNameChars cs := by
  rw [isName, String.toList_ofList]

/-- No character is both in a name and a digit. -/
theorem not_digit_of_isNameChar {c : Char} (named : isNameChar c = true) : c.isDigit = false := by
  cases digit : c.isDigit with
  | false => rfl
  | true =>
    simp only [isNameChar, Bool.or_eq_true, decide_eq_true_eq, beq_iff_eq] at named
    simp only [Char.isDigit, Bool.and_eq_true, decide_eq_true_eq] at digit
    rcases named with ⟨low, high⟩ | rfl
    · have above : 97 ≤ c.val := low
      exact absurd (UInt32.le_trans above digit.2) (by decide)
    · exact absurd digit (by decide)

/-! ## Segments -/

theorem Segment.wellFormed_of_ofChars? {cs : List Char} {segment : Segment}
    (read : Segment.ofChars? cs = some segment) :
    segment.WellFormed ∧ cs = segment.text.toList := by
  unfold Segment.ofChars? at read
  split at read
  · rename_i top
    cases read
    exact ⟨trivial, top⟩
  · split at read
    · rename_i digits
      cases read
      simp only [Bool.and_eq_true, Bool.not_eq_true', List.isEmpty_eq_false_iff, List.all_eq_true] at digits
      refine ⟨⟨?_, by simpa [isDigit_iff] using digits.2⟩, by simp [Segment.text]⟩
      simpa using digits.1
    · split at read
      · rename_i name lead
        obtain ⟨named, same⟩ := Option.ite_none_right_eq_some.mp read
        cases same
        rw [dropLead?_iff] at lead
        exact ⟨by simpa [Segment.WellFormed, wellNamed_iff, isName_ofList] using named, by simp [Segment.text, lead]⟩
      · obtain ⟨named, same⟩ := Option.ite_none_right_eq_some.mp read
        cases same
        exact ⟨by simpa [Segment.WellFormed, wellNamed_iff, isName_ofList] using named, by simp [Segment.text]⟩

theorem Segment.ofChars?_text {segment : Segment} (formed : segment.WellFormed) :
    Segment.ofChars? segment.text.toList = some segment := by
  cases segment with
  | top => rfl
  | position digits =>
    have some : digits.toList ≠ [] := by simpa using formed.1
    have notTop : digits.toList ≠ ['&', '0'] := by
      intro same
      exact absurd (formed.2 '&' (by simp [same])) (by decide)
    have all : (!digits.toList.isEmpty && digits.toList.all Char.isDigit) = true := by
      simpa [some, isDigit_iff] using formed.2
    simp [Segment.text, Segment.ofChars?, notTop, all]
  | reference name =>
    have named : isNameChars name.toList = true := wellNamed_iff.mp formed
    simp [Segment.text, Segment.ofChars?, dropLead?, named]
  | key name =>
    have isNamed := wellNamed_iff.mp formed
    obtain ⟨c, rest, chars, first⟩ := isName_head isNamed
    have notTop : c ≠ '&' := by
      rintro rfl
      cases first
    have notReference : c ≠ '$' := by
      rintro rfl
      cases first
    have named : isNameChars (c :: rest) = true := chars ▸ isNamed
    have spelled : String.ofList (c :: rest) = name := by rw [← chars, String.ofList_toList]
    simp [Segment.text, Segment.ofChars?, chars, notTop, notReference, dropLead?, named, spelled,
      not_digit_of_isNameChar first]

theorem Segment.ofChars?_iff {cs : List Char} {segment : Segment} :
    Segment.ofChars? cs = some segment ↔ segment.WellFormed ∧ cs = segment.text.toList := by
  refine ⟨Segment.wellFormed_of_ofChars?, ?_⟩
  rintro ⟨formed, rfl⟩
  exact Segment.ofChars?_text formed

/-- A point divides segments, so there is none inside. -/
theorem Segment.WellFormed.no_point {segment : Segment} (formed : segment.WellFormed) :
    '.' ∉ segment.text.toList := by
  cases segment with
  | top => decide
  | position digits =>
    intro member
    exact absurd (formed.2 '.' member) (by decide)
  | reference name =>
    have inner := not_mem_name (wellNamed_iff.mp formed) (c := '.') (by decide)
    simpa [Segment.text] using inner
  | key name => exact not_mem_name (wellNamed_iff.mp formed) (by decide)

/-! ## Paths -/

/-- The parts of a path between its points. -/
def Path.parts (path : Path) : List (List Char) :=
  path.name.toList :: path.segments.map fun segment => segment.text.toList

theorem Path.text_eq_intercalate (path : Path) :
    path.text.toList = ['.'].intercalate path.parts := by
  have folded (segments : List Segment) (out : String) :
      (segments.foldl (fun out segment => out ++ "." ++ segment.text) out).toList =
        ['.'].intercalate (out.toList :: segments.map fun segment => segment.text.toList) := by
    induction segments generalizing out with
    | nil => simp
    | cons segment segments ih =>
      rw [List.foldl_cons, ih, List.map_cons, List.intercalate_cons_cons]
      cases segments with
      | nil => simp
      | cons next others => simp [List.intercalate_cons_cons]
  exact folded path.segments path.name

theorem Segment.mapM_ofChars?_iff {parts : List (List Char)} {segments : List Segment} :
    parts.mapM Segment.ofChars? = some segments ↔
      (∀ segment ∈ segments, segment.WellFormed) ∧
        parts = segments.map fun segment => segment.text.toList := by
  induction parts generalizing segments with
  | nil =>
    cases segments with
    | nil => simp
    | cons segment segments => simp
  | cons part parts ih =>
    rw [List.mapM_cons]
    constructor
    · intro read
      obtain ⟨segment, first, read⟩ := Option.bind_eq_some_iff.mp read
      obtain ⟨others, rest, read⟩ := Option.bind_eq_some_iff.mp read
      cases read
      obtain ⟨formed, rfl⟩ := Segment.ofChars?_iff.mp first
      obtain ⟨each, rfl⟩ := ih.mp rest
      exact ⟨List.forall_mem_cons.mpr ⟨formed, each⟩, rfl⟩
    · rintro ⟨each, same⟩
      cases segments with
      | nil => cases same
      | cons segment segments =>
        obtain ⟨rfl, rest⟩ := List.cons.inj same
        obtain ⟨formed, others⟩ := List.forall_mem_cons.mp each
        rw [Segment.ofChars?_text formed, ih.mpr ⟨others, rest⟩]
        rfl

theorem Path.ofChars?_iff {cs : List Char} {path : Path} :
    Path.ofChars? cs = some path ↔ path.WellFormed ∧ cs = path.text.toList := by
  rw [Path.text_eq_intercalate]
  constructor
  · intro read
    have joined : ['.'].intercalate (cs.splitOn '.') = cs := List.intercalate_splitOn '.'
    unfold Path.ofChars? at read
    split at read
    · cases read
    · rename_i name parts split
      obtain ⟨named, read⟩ := Option.ite_none_right_eq_some.mp read
      split at read
      · rename_i segments mapped
        cases read
        obtain ⟨each, rfl⟩ := Segment.mapM_ofChars?_iff.mp mapped
        refine ⟨⟨by rwa [wellNamed_iff, isName_ofList], each⟩, ?_⟩
        rw [← joined, split, Path.parts, String.toList_ofList]
      · cases read
  · rintro ⟨formed, rfl⟩
    have pointless : ∀ part ∈ path.parts, '.' ∉ part := by
      intro part member
      rcases List.mem_cons.mp member with rfl | member
      · exact not_mem_name (wellNamed_iff.mp formed.name) (by decide)
      · obtain ⟨segment, within, rfl⟩ := List.mem_map.mp member
        exact (formed.segments segment within).no_point
    have split : (['.'].intercalate path.parts).splitOn '.' = path.parts :=
      List.splitOn_intercalate '.' pointless (List.cons_ne_nil _ _)
    have named : isNameChars path.name.toList = true := wellNamed_iff.mp formed.name
    have mapped := Segment.mapM_ofChars?_iff.mpr ⟨formed.segments, rfl⟩
    rw [Path.ofChars?, split]
    simp only [Path.parts, named, mapped, if_true, String.ofList_toList]

/-! ## The readings -/

/-- A path behind a leading character. -/
theorem Path.ofChars?_behind {lead : Char} {cs : List Char} {path : Path} :
    (dropLead? lead cs).bind Path.ofChars? = some path ↔
      path.WellFormed ∧ cs = lead :: path.text.toList := by
  rw [Option.bind_eq_some_iff]
  constructor
  · rintro ⟨rest, dropped, read⟩
    obtain ⟨formed, rfl⟩ := Path.ofChars?_iff.mp read
    exact ⟨formed, dropLead?_iff.mp dropped⟩
  · rintro ⟨formed, rfl⟩
    exact ⟨_, dropLead?_iff.mpr rfl, Path.ofChars?_iff.mpr ⟨formed, rfl⟩⟩

theorem Path.ofPush?_iff {text : String} {path : Path} :
    Path.ofPush? text = some path ↔ path.WellFormed ∧ text = (Token.push path).text := by
  have behind : Path.ofPush? text = (dropLead? '$' text.toList).bind Path.ofChars? := by
    unfold Path.ofPush?
    cases dropLead? '$' text.toList <;> rfl
  rw [behind, Path.ofChars?_behind, ← String.toList_inj]
  simp [Token.text]

theorem Path.ofPop?_iff {text : String} {path : Path} :
    Path.ofPop? text = some path ↔ path.WellFormed ∧ text = (Token.pop path).text := by
  have behind : Path.ofPop? text = (dropLead? '&' text.toList).bind Path.ofChars? := by
    unfold Path.ofPop?
    cases dropLead? '&' text.toList <;> rfl
  rw [behind, Path.ofChars?_behind, ← String.toList_inj]
  simp [Token.text]

theorem Path.ofMethod?_iff {text : String} {path : Path} :
    Path.ofMethod? text = some path ↔ path.WellFormed ∧ text = (Token.method path).text := by
  have behind : Path.ofMethod? text =
      (dropLead? ':' text.toList).bind fun cs => (dropLead? '$' cs).bind Path.ofChars? := by
    unfold Path.ofMethod?
    cases dropLead? ':' text.toList with
    | none => rfl
    | some cs =>
      dsimp only [Option.bind_some]
      cases dropLead? '$' cs <;> rfl
  rw [behind, Option.bind_eq_some_iff, ← String.toList_inj]
  simp only [dropLead?_iff, Path.ofChars?_behind]
  constructor
  · rintro ⟨_, whole, formed, rfl⟩
    exact ⟨formed, by simpa [Token.text] using whole⟩
  · rintro ⟨formed, whole⟩
    exact ⟨_, by simpa [Token.text] using whole, formed, rfl⟩

theorem Control.ofSign?_iff {text : String} {op : Control} :
    Control.ofSign? text = some op ↔ op.word? = none ∧ text = op.text := by
  constructor
  · intro read
    unfold Control.ofSign? at read
    split at read <;> cases read <;> exact ⟨rfl, rfl⟩
  · rintro ⟨sign, rfl⟩
    cases op <;> first | rfl | cases sign

theorem Control.ofWord?_iff {text : String} {op : Control} :
    Control.ofWord? text = some op ↔ op.word? = some text := by
  constructor
  · intro read
    unfold Control.ofWord? at read
    split at read <;> cases read <;> rfl
  · intro word
    cases op <;> cases word <;> rfl

theorem Control.ofMarked?_iff {text : String} {op : Control} :
    Control.ofMarked? text = some op ↔
      ∃ word, op.word? = some word ∧ (text = "#" ++ word ∨ text = "~" ++ word) := by
  have spelled (word : String) : text = "#" ++ word ∨ text = "~" ++ word ↔
      ∃ c, text.toList = c :: word.toList ∧ (c = '#' ∨ c = '~') := by
    rw [← String.toList_inj, ← String.toList_inj]
    constructor
    · rintro (sharp | tilde)
      · exact ⟨'#', by simpa using sharp, .inl rfl⟩
      · exact ⟨'~', by simpa using tilde, .inr rfl⟩
    · rintro ⟨c, chars, rfl | rfl⟩
      · exact .inl (by simpa using chars)
      · exact .inr (by simpa using chars)
  simp only [spelled]
  constructor
  · intro read
    unfold Control.ofMarked? at read
    split at read
    · rename_i c cs chars
      obtain ⟨marked, read⟩ := Option.ite_none_right_eq_some.mp read
      exact ⟨_, Control.ofWord?_iff.mp read, c, by simpa using chars, marked⟩
    · cases read
  · rintro ⟨word, worded, c, chars, marked⟩
    rw [Control.ofMarked?, chars]
    simp only [marked, if_true, String.ofList_toList]
    exact Control.ofWord?_iff.mpr worded

/-! ## Tokens -/

/-- What is read is well formed and spelled that way. -/
theorem Token.spelled_of_read {text : String} {token : Token} (read : Token.read text = .ok token) :
    token.WellFormed ∧ token.Spelled text := by
  have spec := Token.read_spec text
  rw [read] at spec
  cases token with
  | push path =>
    obtain ⟨formed, spelled⟩ := Path.ofPush?_iff.mp spec
    exact ⟨formed, .inl spelled⟩
  | pop path =>
    obtain ⟨formed, spelled⟩ := Path.ofPop?_iff.mp spec
    exact ⟨formed, .inl spelled⟩
  | method path =>
    obtain ⟨formed, spelled⟩ := Path.ofMethod?_iff.mp spec.1
    exact ⟨⟨formed, by simpa [Path.isBare] using spec.2⟩, .inl spelled⟩
  | call name =>
    obtain ⟨rfl, named⟩ := spec
    refine ⟨⟨wellNamed_iff.mpr named, ?_⟩, .inl rfl⟩
    -- the operator is tried before the name
    rintro rfl
    have operator : Token.read "-" = .ok (.control .subtract) := rfl
    rw [operator] at read
    cases read
  | control op =>
    refine ⟨trivial, ?_⟩
    rcases spec with sign | marked
    · exact .inl (Control.ofSign?_iff.mp sign).2
    · obtain ⟨word, worded, rfl | rfl⟩ := Control.ofMarked?_iff.mp marked
      · exact .inl (by simp [Token.text, Control.text, worded])
      · exact .inr ⟨op, word, rfl, worded, rfl⟩

theorem Path.ofPush?_none {text : String} (other : text.toList.head? ≠ some '$') :
    Path.ofPush? text = none := by
  rw [Path.ofPush?, dropLead?_none.mpr other]

theorem Path.ofPop?_none {text : String} (other : text.toList.head? ≠ some '&') :
    Path.ofPop? text = none := by
  rw [Path.ofPop?, dropLead?_none.mpr other]

/-- Every spelling of a well formed token is read as this token. -/
theorem Token.read_of_spelled {text : String} {token : Token} (formed : token.WellFormed)
    (spelled : token.Spelled text) : Token.read text = .ok token := by
  rcases spelled with rfl | ⟨op, word, rfl, worded, rfl⟩
  · cases token with
    | push path => rw [Token.read, Path.ofPush?_iff.mpr ⟨formed, rfl⟩]
    | pop path =>
      have noPush : Path.ofPush? (Token.pop path).text = none := Path.ofPush?_none (by simp [Token.text])
      rw [Token.read, noPush, Path.ofPop?_iff.mpr ⟨formed, rfl⟩]
    | method path =>
      have noPush : Path.ofPush? (Token.method path).text = none :=
        Path.ofPush?_none (by simp [Token.text])
      have noPop : Path.ofPop? (Token.method path).text = none :=
        Path.ofPop?_none (by simp [Token.text])
      have slotted : path.isBare = false := by simpa [Path.isBare] using formed.2
      rw [Token.read, noPush, noPop, Path.ofMethod?_iff.mpr ⟨formed.1, rfl⟩]
      simp [slotted]
    | call name =>
      obtain ⟨formed, notMinus⟩ := formed
      have named := wellNamed_iff.mp formed
      have noSign : Control.ofSign? name = none := by
        rw [Option.eq_none_iff_forall_ne_some]
        intro op read
        obtain ⟨_, rfl⟩ := Control.ofSign?_iff.mp read
        cases op with
        | subtract => exact notMinus rfl
        | _ => exact absurd named (by decide)
      obtain ⟨c, rest, chars, first⟩ := isName_head named
      have other {lead : Char} (outside : isNameChar lead = false) : name.toList.head? ≠ some lead := by
        rw [chars]
        rintro ⟨⟩
        rw [first] at outside
        cases outside
      have noMethod : Path.ofMethod? name = none := by
        rw [Path.ofMethod?, dropLead?_none.mpr (other rfl)]
      rw [Token.text, Token.read, Path.ofPush?_none (other rfl), Path.ofPop?_none (other rfl), noMethod,
        noSign]
      simp [named]
    | control op => cases op <;> rfl
  · cases op <;> cases worded <;> rfl

/-- **The reader accepts exactly the grammar, and a text is at most one token.** A text is
read as a token exactly where the token is well formed and the text spells it: as the token
is printed, or with `~` before the word of a control. Every other text is malformed: an
instruction of it fails as such, with an empty trail, and does nothing else. In particular
a well formed token is read back from its print. -/
theorem Token.read_exact (text : String) :
    (∀ token, Token.read text = .ok token ↔ token.WellFormed ∧ token.Spelled text) ∧
    ((∀ token : Token, token.WellFormed → ¬ token.Spelled text) →
      ∃ fault, Token.read text = .error fault ∧ fault.kind = .malformedInstruction ∧
        ∀ {σ : Type} [Host σ] (settings : Settings σ) (call : Program → Action σ Unit)
            (machine : Machine σ),
          (Machine.execute settings call (.ofToken text)).run machine =
            (.error { fault, trail := [] }, machine)) ∧
    ∀ token : Token, token.WellFormed → Token.read token.text = .ok token := by
  refine ⟨fun token => ⟨Token.spelled_of_read, ?_⟩, fun other => ?_, fun token formed => ?_⟩
  · rintro ⟨formed, spelled⟩
    exact Token.read_of_spelled formed spelled
  · have spec := Token.read_spec text
    cases read : Token.read text with
    | ok token =>
      obtain ⟨formed, spelled⟩ := Token.spelled_of_read read
      exact absurd spelled (other token formed)
    | error fault =>
      rw [read] at spec
      refine ⟨fault, rfl, ?_, ?_⟩
      · rcases spec with rfl | rfl <;> rfl
      · intro σ _ settings call machine
        rw [Instruction.ofToken, read]
        rfl
  · exact Token.read_of_spelled formed (.inl rfl)

/-- A path of every kind of segment, a control behind `~`, and a method without a slot. -/
theorem Token.read_exact_cases :
    let path : Path := { name := "a-b", segments := [.position "007", .reference "-", .key "k", .top] }
    Token.read ":$a-b.007.$-.k.&0" = .ok (.method path) ∧
      Token.read "~exit" = .ok (.control .exit) ∧
      ∃ fault, Token.read ":$a-b" = .error fault ∧ fault.kind = .malformedInstruction := by
  intro path
  have formed : (Token.method path).WellFormed := by
    refine ⟨⟨wellNamed_iff.mpr (by decide), ?_⟩, by simp [path]⟩
    simp only [path, List.forall_mem_cons]
    exact ⟨⟨by decide, by simp⟩, wellNamed_iff.mpr (by decide), wellNamed_iff.mpr (by decide),
      trivial, nofun⟩
  have malformed : ∀ token : Token, token.WellFormed → ¬ token.Spelled ":$a-b" := by
    intro token formed spelled
    have read := ((Token.read_exact ":$a-b").1 token).mpr ⟨formed, spelled⟩
    cases read
  obtain ⟨fault, failed, kind, _⟩ := (Token.read_exact ":$a-b").2.1 malformed
  refine ⟨(Token.read_exact "").2.2 _ formed, ?_, fault, failed, kind⟩
  exact ((Token.read_exact "~exit").1 _).mpr ⟨trivial, .inr ⟨.exit, "exit", rfl, rfl, rfl⟩⟩

end StackScript
