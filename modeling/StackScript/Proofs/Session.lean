/-
# StackScript.Proofs.Session — what every session keeps

Everything that runs in a session was read from literals. Tokens therefore bear
names that a program can write, programs inside values have their literals behind
them, and dicts, which only grow by insertion, stay in order. `Discipline.session`
says this of every piece of a context, and every sequence of submissions keeps it
(`Session.submitAll_sound`). A session then never sees an invalid context
(`Session.context_valid`).
-/
import StackScript.Proofs.Simulation
import StackScript.Session

namespace StackScript

set_option autoImplicit false

/-! ## Names -/

theorem isName_iff {name : String} :
    isName name = true ↔ name ≠ "" ∧ ∀ c ∈ name.toList, ('a' ≤ c ∧ c ≤ 'z') ∨ c = '-' := by
  simp [isName, isNameChars, isNameChar]

theorem Context.isValid_iff {context : Context} :
    context.isValid = true ↔ ∀ name,
      name ∈ context.bindings.map Prod.fst ++ context.functions.map Prod.fst → isName name = true := by
  simp only [Context.isValid, Bool.and_eq_true, List.all_eq_true, List.forall_mem_append,
    List.forall_mem_map]

/-! ## What the reader makes -/

theorem Path.ofChars?_name {cs : List Char} {path : Path} (read : Path.ofChars? cs = some path) :
    isName path.name = true := by
  unfold Path.ofChars? at read
  split at read
  · cases read
  · split at read
    · rename_i named
      split at read
      · cases read
        simpa [isName] using named
      · cases read
    · cases read

theorem Path.ofPop?_name {text : String} {path : Path} (read : Path.ofPop? text = some path) :
    isName path.name = true := by
  unfold Path.ofPop? at read
  split at read
  · exact Path.ofChars?_name read
  · cases read

/-- What reading a token tells about its text, one case for every reading. -/
theorem Token.read_spec (text : String) :
    match Token.read text with
    | .ok (.push path) => Path.ofPush? text = some path
    | .ok (.pop path) => Path.ofPop? text = some path
    | .ok (.method path) => Path.ofMethod? text = some path ∧ path.isBare = false
    | .ok (.call name) => name = text ∧ isName text = true
    | .ok (.control op) => Control.ofSign? text = some op ∨ Control.ofMarked? text = some op
    | .error fault => fault = .bareMethod ∨ fault = .malformedInstruction := by
  unfold Token.read
  cases push : Path.ofPush? text with
  | some path => rfl
  | none =>
    cases pop : Path.ofPop? text with
    | some path => rfl
    | none =>
      cases method : Path.ofMethod? text with
      | some path =>
        by_cases bare : path.isBare = true
        · simp [bare]
        · simp [bare]
      | none =>
        cases sign : Control.ofSign? text with
        | some op => exact .inl rfl
        | none =>
          by_cases named : isName text = true
          · simp [named]
          · cases marked : Control.ofMarked? text with
            | some op => simp [named]
            | none => simp [named]

/-- Only strings are read as tokens. -/
theorem Instruction.ofLiteral_token {tree : Json} {text : String} {read : Token}
    (made : Instruction.ofLiteral tree = .token text read) : Token.read text = .ok read := by
  rcases Instruction.ofLiteral_cases tree with
    ⟨written, _, same⟩ | ⟨held, _, _, same⟩ | ⟨items, _, _, same⟩ | same | same
  · rw [same, Instruction.ofToken] at made
    split at made
    · rename_i found
      cases made
      exact found
    · cases made
  all_goals
    rw [same] at made
    cases made

/-- A literal that cannot be read fails with an ordinary fault when it is reached. -/
theorem Instruction.ofLiteral_invalid {tree origin : Json} {fault : Fault}
    (made : Instruction.ofLiteral tree = .invalid origin fault) : fault.Ordinary := by
  rcases Instruction.ofLiteral_cases tree with
    ⟨written, _, same⟩ | ⟨held, _, _, same⟩ | ⟨items, _, _, same⟩ | same | same <;>
    rw [same] at made
  · have spec := Token.read_spec written
    rw [Instruction.ofToken] at made
    split at made
    · cases made
    · rename_i failed
      rw [failed] at spec
      cases made
      rcases spec with rfl | rfl <;> trivial
  · cases made
  · cases made
  · cases made
  · cases made
    trivial

/-! ## The discipline of sessions -/

/-- The instruction was read from a literal. -/
def Instruction.FromLiteral (instruction : Instruction) : Prop :=
  ∃ tree, instruction = .ofLiteral tree

/-- The function is a program read from literals, and not from a single string. -/
def Body.FromLiterals (body : Body) : Prop :=
  ∃ items, body = .program (Program.ofItems items) ∧ ∀ text, items ≠ [.string text]

def Discipline.session : Discipline where
  dict := Entries.Ascending
  body := Body.FromLiterals
  instruction := Instruction.FromLiteral
  name name := isName name = true
  functions functions := ∀ entry ∈ functions, isName entry.1 = true ∧
    ∀ program, entry.2 = .program program → ∀ instruction ∈ program, instruction.FromLiteral
  native _ := True
  fault fault := ¬ fault.OfContext

namespace Discipline

/-- A literal reads as an allowed instruction if everything inside it is allowed. -/
theorem session_reads {tree : Json} (literal : Piece.All session.ok (.literal tree)) :
    Piece.All session.ok (.instruction (.ofLiteral tree)) := by
  have self : session.ok (.instruction (.ofLiteral tree)) := ⟨tree, rfl⟩
  rcases Instruction.ofLiteral_cases tree with
    ⟨text, _, same⟩ | ⟨held, simple, notFunction, same⟩ | ⟨items, rfl, notText, same⟩ | same | same
  · rw [same, Instruction.ofToken] at self ⊢
    split at self
    · exact Piece.all_token.mpr self
    · exact Piece.all_invalid.mpr self
  · rw [same] at self ⊢
    exact Piece.all_held.mpr ⟨self, allows_scalar simple notFunction⟩
  · rw [same] at self ⊢
    exact Piece.all_held.mpr ⟨self, allows_function.mpr (literal.part (.program notText))⟩
  · rw [same] at self ⊢
    exact Piece.all_tree.mpr ⟨self, literal⟩
  · rw [same] at self ⊢
    exact Piece.all_invalid.mpr self

theorem session_literal (tree : Json) : Piece.All session.ok (.literal tree) := by
  induction tree using Json.literalInduction with
  | null | bool _ | integer _ | float _ _ | string _ =>
    refine (Piece.all_leaf ?_).mpr trivial
    exact nofun
  | text text =>
    refine (Piece.all_leaf ?_).mpr trivial
    rintro _ (_ | _ | _ | _ | _ | _ | notText)
    exact notText text rfl
  | program items notText ih =>
    have each : ∀ instruction ∈ Program.ofItems items,
        Piece.All session.ok (.instruction instruction) := by
      intro instruction member
      rw [Program.ofItems_eq] at member
      obtain ⟨item, within, rfl⟩ := List.mem_map.mp member
      exact session_reads (ih item within)
    refine Piece.all_iff.mpr ⟨trivial, fun part within => ?_⟩
    cases within
    exact Piece.all_program.mpr ⟨⟨items, rfl, notText⟩, each⟩
  | array items ih =>
    refine Piece.all_iff.mpr ⟨trivial, fun part within => ?_⟩
    rcases within.of_object with ⟨_, element, same, member, rfl⟩ | ⟨_, _, same, _⟩
    · obtain rfl : items = _ := by simpa using same
      exact ih element member
    · simp at same
  | dict entries ih =>
    refine Piece.all_iff.mpr ⟨trivial, fun part within => ?_⟩
    rcases within.of_object with ⟨_, _, same, _⟩ | ⟨_, entry, same, member, rfl⟩
    · simp at same
    · obtain rfl : entries = _ := by simpa using same
      exact ih entry member
  | other entries notArray notDict =>
    refine (Piece.all_leaf fun part within => ?_).mpr trivial
    rcases within.of_object with ⟨items, _, same, _⟩ | ⟨inner, _, same, _⟩
    · exact notArray items same
    · exact notDict inner same

/-- Instructions that were read from literals may run. -/
theorem session_runs {program : Program}
    (fromLiterals : ∀ instruction ∈ program, instruction.FromLiteral) : session.Runs program := by
  intro instruction member
  obtain ⟨tree, rfl⟩ := fromLiterals instruction member
  exact session_reads (session_literal tree)

theorem session_lawful : session.Lawful where
  dict_nil := List.Pairwise.nil
  dict_insert key value ascending := Entries.ascending_insert ascending key value
  dict_replace key value ascending := Entries.ascending_replace ascending key value
  native _ := trivial
  pop := by
    rintro text path ⟨tree, made⟩
    have spec := Token.read_spec text
    rw [Instruction.ofLiteral_token made.symm] at spec
    exact Path.ofPop?_name spec
  call := by
    intro text name functions body _ table found
    obtain ⟨_, fromLiterals⟩ := table _ (Entries.mem_of_find? found)
    cases body with
    | native name => trivial
    | program program => exact session_runs (fromLiterals program rfl)
  main := by
    intro program functions runs table _ entry member
    have named : isName Context.mainName = true := by decide
    rcases Entries.mem_insert member with rfl | kept
    · refine ⟨named, fun program same instruction within => ?_⟩
      cases same
      exact (runs instruction within).self
    · exact table entry kept
  invalid := by
    rintro tree fault ⟨origin, made⟩
    exact (Instruction.ofLiteral_invalid made.symm).not_ofContext
  fault := id
  valid := by
    intro context names table
    have functionNames : ∀ entry ∈ context.functions, isName entry.1 = true :=
      fun entry member => (table entry member).1
    refine .inl (Context.isValid_iff.mpr ?_)
    simp only [List.forall_mem_append, List.forall_mem_map]
    exact ⟨names, functionNames⟩

end Discipline

/-! ## Submissions -/

theorem Context.initial_obeys : Context.initial.Obeys Discipline.session where
  stack := nofun
  names := nofun
  bindings := nofun
  functions := by
    intro entry member
    have named : ∀ name ∈ Context.nativeNames, isName name = true := by decide
    obtain ⟨name, listed, rfl⟩ := List.mem_map.mp (Entries.mem_ofList entry member)
    exact ⟨named name listed, nofun⟩

theorem Program.parse_ends (source : String) :
    Work.Ends Fault.Ordinary Discipline.session.Runs (Program.parse source) := by
  unfold Program.parse
  split
  · rename_i literal _
    cases literal with
    | array items =>
      refine Discipline.session_runs fun instruction member => ?_
      rw [Program.ofItems_eq] at member
      obtain ⟨item, _, rfl⟩ := List.mem_map.mp member
      exact ⟨item, rfl⟩
    | _ => trivial
  · trivial

variable {σ : Type} [Host σ]

theorem Machine.submit_keeps (settings : Settings σ) (standard : settings.natives = Native.standard)
    (source : String) :
    Discipline.session.Keeps (fun _ => True) (Machine.submit settings source) := by
  have parsed := Program.parse_ends source
  unfold Machine.submit
  split
  · rename_i program read
    rw [read] at parsed
    exact Machine.evaluate_keeps Discipline.session_lawful standard parsed
  · rename_i fault failed
    rw [failed] at parsed
    exact .throw parsed.not_ofContext

namespace Session

/-- Answers submissions one after the other. -/
def submitAll (session : Session σ) : List String → List Reply × Session σ
  | [] => ([], session)
  | source :: rest =>
    let (reply, session) := session.submit source
    let (replies, session) := session.submitAll rest
    (reply :: replies, session)

/-- What a session keeps: the natives it started with, and a context in discipline. -/
structure Sound (session : Session σ) : Prop where
  natives : session.settings.natives = Native.standard
  context : session.machine.context.Obeys Discipline.session

theorem start_sound (limit : Nat) (tracing : Bool) (host : σ) :
    (start { natives := Native.standard, limit, tracing } host).Sound where
  natives := rfl
  context := Context.initial_obeys

theorem Sound.valid {session : Session σ} (sound : session.Sound) :
    session.machine.context.isValid = true := by
  have lawful := Discipline.session_lawful
  rcases lawful.valid sound.context.names sound.context.functions with valid | anything
  · exact valid
  · exact absurd (.inl rfl) (anything .invalidApi)

theorem submit_sound {session : Session σ} (sound : session.Sound) (source : String) :
    (session.submit source).2.Sound ∧
      ∀ failure, (session.submit source).1 = .error failure → ¬ failure.fault.OfContext := by
  unfold submit
  split
  · exact ⟨sound, nofun⟩
  · obtain ⟨obeys, ended⟩ :=
      Machine.submit_keeps session.settings sound.natives source session.machine sound.context
    rcases ran : (Machine.submit session.settings source).run session.machine with ⟨result, machine⟩
    rw [ran] at obeys ended
    refine ⟨⟨sound.natives, obeys⟩, fun failure replied => ?_⟩
    cases result with
    | ok _ => cases replied
    | error cause =>
      simp only [Reply.ofResult] at replied
      split at replied
      · cases replied
      · cases replied
        exact ended

theorem submitAll_sound {session : Session σ} (sound : session.Sound) (sources : List String) :
    (session.submitAll sources).2.Sound ∧
      ∀ failure, .error failure ∈ (session.submitAll sources).1 → ¬ failure.fault.OfContext := by
  induction sources generalizing session with
  | nil => exact ⟨sound, nofun⟩
  | cons source rest ih =>
    obtain ⟨next, replied⟩ := submit_sound sound source
    obtain ⟨final, others⟩ := ih next
    refine ⟨final, fun failure member => ?_⟩
    rcases List.mem_cons.mp member with first | later
    · exact replied failure first.symm
    · exact others failure later

/-- **The context of a session is always valid.** After any submissions, however they
ended, every variable and every function has a name of lower case letters and hyphens,
so no submission is ever refused for the state of the context. -/
theorem context_valid (limit : Nat) (tracing : Bool) (host : σ) (sources : List String) :
    let settings : Settings σ := { natives := Native.standard, limit, tracing }
    let (replies, session) := (start settings host).submitAll sources
    let context := session.machine.context
    context.isValid = true ∧
      (∀ name, name ∈ context.bindings.map Prod.fst ++ context.functions.map Prod.fst →
        name ≠ "" ∧ ∀ c ∈ name.toList, ('a' ≤ c ∧ c ≤ 'z') ∨ c = '-') ∧
      ∀ failure, .error failure ∈ replies →
        failure.fault.kind ≠ .invalidApi ∧ failure.fault.kind ≠ .unsafeContext := by
  intro settings
  obtain ⟨sound, replied⟩ := submitAll_sound (start_sound limit tracing host) sources
  have valid := sound.valid
  refine ⟨valid, fun name member => ?_, fun failure member => ?_⟩
  · exact isName_iff.mp (Context.isValid_iff.mp valid name member)
  · exact not_or.mp (replied failure member)

end Session

end StackScript
