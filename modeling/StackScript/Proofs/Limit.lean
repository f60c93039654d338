/-
# StackScript.Proofs.Limit — more room never changes a run that had enough

`evaluateWithin` recurs on the room that the limit leaves, and `run` takes the call
of a program as a parameter. So a run is compared with the same run under a higher
limit in two steps: the instructions carry over whatever holds of the calls
(`Machine.run_matches`), and the calls match by induction on the room. Running out
of room is the only thing that differs. It is a failure like any other on its way
out, and no instruction outside turns it into something else, so a run that ends in
another way never ran out inside (`Machine.evaluate_limit`).
-/
import StackScript.Host.Basic
import StackScript.Proofs.Machine

namespace StackScript

set_option autoImplicit false

variable {σ α β : Type}

/-- The run was cut off by the limit, here or further in. -/
def Failure.OfDepth (failure : Failure) : Prop :=
  failure.fault.kind = .callDepthExceeded

namespace Action

/-- From every machine the second action does what the first one does, trace and all,
unless the first one is cut off by the limit. -/
def Matches (first second : Action σ α) : Prop :=
  Work.InStep Eq Failure.OfDepth (fun _ => True) (fun _ => True) first second

namespace Matches

theorem refl (action : Action σ α) : Matches action action := by
  rintro machine _ rfl
  refine .inr ⟨?_, (action.run machine).2, rfl, rfl⟩
  rcases (action.run machine).1 with _ | _ <;> exact trivial

theorem bind {first second : Action σ α} {next next' : α → Action σ β}
    (starts : Matches first second) (rest : ∀ result, Matches (next result) (next' result)) :
    Matches (first >>= next) (second >>= next') :=
  Work.InStep.bind starts fun result _ => rest result

/-- Two actions that start in the same way. -/
theorem after (action : Action σ α) {next next' : α → Action σ β}
    (rest : ∀ result, Matches (next result) (next' result)) :
    Matches (action >>= next) (action >>= next') :=
  (refl action).bind rest

theorem within {first second : Action σ α} (inner : Matches first second)
    (instruction : Instruction) :
    Matches (Action.within instruction first) (Action.within instruction second) := by
  refine Work.InStep.wrap inner id id (fun _ machine => machine) (fun _ machine => machine)
    (·.within instruction.text) (run_within instruction first) (run_within instruction second)
    (fun _ _ => id) (fun _ _ _ _ _ => id) ?_ (fun _ => id)
  intro failure cut
  show (failure.within instruction.text).fault.kind = .callDepthExceeded
  rwa [fault_within]

theorem deeper {first second : Action σ α} (inner : Matches first second) :
    Matches (Action.deeper first) (Action.deeper second) := by
  refine Work.InStep.wrap inner Machine.entered Machine.entered (fun _ => Machine.left)
    (fun _ => Machine.left) id (run_deeper first) (run_deeper second) ?_ ?_ (fun _ => id) fun _ => id
  · exact fun _ _ same => congrArg Machine.entered same
  · exact fun _ _ _ _ _ same => congrArg Machine.left same

/-- A run that was not cut off is the run of every action that matches. -/
theorem run_eq {first second : Action σ α} (matched : Matches first second)
    {machine after : Machine σ} {result : Except Failure α}
    (ran : first.run machine = (result, after))
    (enough : ∀ failure, result = .error failure → ¬ failure.OfDepth) :
    second.run machine = (result, after) := by
  have ended := matched machine machine rfl
  rw [ran] at ended
  rcases ended with cut | ⟨_, _, ran', rfl⟩
  · cases result with
    | ok _ => exact cut.elim
    | error failure => exact absurd cut (enough failure rfl)
  · exact ran'

end Matches

end Action

namespace Machine

open StackScript.Action (Matches)

variable [Host σ]

/-! ## Instructions carry over what holds of calls -/

section Calls

variable (settings : Settings σ) (limit : Nat) {call call' : Program → Action σ Unit}
  (calls : ∀ program, Matches (call program) (call' program))

include calls

omit [Host σ] in
theorem invoke_matches (body : Body) :
    Matches (invoke settings call body) (invoke { settings with limit } call' body) := by
  cases body with
  | program program => exact calls program
  | native name => exact .refl _

omit [Host σ] in
theorem executeCall_matches (name : String) :
    Matches (executeCall settings call name) (executeCall { settings with limit } call' name) := by
  refine .after Action.getContext fun context => ?_
  split
  · exact invoke_matches settings limit calls _
  · exact .refl _

omit [Host σ] in
theorem executeMethod_matches (path : Path) :
    Matches (executeMethod settings call path) (executeMethod { settings with limit } call' path) := by
  refine .after Action.getContext fun context => ?_
  split
  · exact .refl _
  · split
    · exact .refl _
    · refine .after _ fun found => ?_
      split
      · exact .after _ fun _ => invoke_matches settings limit calls _
      · exact .refl _

theorem execute_matches (instruction : Instruction) :
    Matches (execute settings call instruction) (execute { settings with limit } call' instruction) := by
  cases instruction with
  | value held => exact .refl _
  | literal tree => exact .refl _
  | invalid tree fault => exact .refl _
  | token text read =>
    cases read with
    | push path => exact .refl _
    | pop path => exact .refl _
    | control op => exact .refl _
    | method path => exact .bind (executeMethod_matches settings limit calls path) fun _ => .refl _
    | call name => exact .bind (executeCall_matches settings limit calls name) fun _ => .refl _

theorem run_matches (position : Nat) (program : Program) :
    Matches (run settings call position program) (run { settings with limit } call' position program) := by
  induction program generalizing position with
  | nil => exact .refl _
  | cons instruction rest ih =>
    refine .after (observe settings position instruction) fun _ => ?_
    refine .bind ((execute_matches settings limit calls instruction).within instruction) fun flow => ?_
    cases flow with
    | next => exact ih (position + 1)
    | leave => exact .refl _

end Calls

/-! ## Calls under two limits -/

theorem evaluateWithin_matches (settings : Settings σ) (limit : Nat) {room room' : Nat}
    (more : room ≤ room') (program : Program) :
    Matches (evaluateWithin settings room program)
      (evaluateWithin { settings with limit } room' program) := by
  induction room generalizing room' program with
  | zero =>
    -- the first run is cut off right after the preparation, which both make
    have cut (second : Action σ Unit) :
        Matches (Action.fail (.callDepthExceeded settings.limit)) second := fun _ _ _ => .inl rfl
    cases room' with
    | zero => exact .after (prepare program) fun _ => cut _
    | succ room' => exact .after (prepare program) fun _ => cut _
  | succ room ih =>
    obtain ⟨rest, rfl⟩ : ∃ rest, room' = rest + 1 := ⟨room' - 1, by omega⟩
    refine .after (prepare program) fun _ => .deeper ?_
    exact run_matches settings limit (fun program => ih (by omega) program) 0 program

/-- **A higher limit never changes a run that stayed within a lower one.** Unless the run
was cut off by its limit, the run under any higher limit ends in the same way and leaves
the same machine: context, host, depth and trace. The natives may be any. -/
theorem evaluate_limit (settings : Settings σ) {limit : Nat} (more : settings.limit ≤ limit)
    {program : Program} {machine after : Machine σ} {result : Except Failure Unit}
    (ran : (evaluate settings program).run machine = (result, after))
    (enough : ∀ failure, result = .error failure → failure.fault.kind ≠ .callDepthExceeded) :
    (evaluate { settings with limit } program).run machine = (result, after) := by
  have room : settings.limit - machine.depth ≤ limit - machine.depth := by omega
  exact (evaluateWithin_matches settings limit room program).run_eq ran enough

/-- A method that fails inside a call, under the lowest limit that lets it be called. -/
theorem evaluate_limit_method :
    let method : Program := [.token "+" (.control .add)]
    let program : Program := [.value (.dict [("f", .function (.program method))]),
      .token "&d" (.pop { name := "d", segments := [] }),
      .token ":$d.f" (.method { name := "d", segments := [.key "f"] })]
    let machine : Machine Transcript := { context := Context.initial, host := {} }
    let failure : Failure := { fault := .stackUnderflow, trail := [":$d.f", "+"] }
    let after : Machine Transcript :=
      { machine with context :=
        { bindings := [("d", .dict [("f", .function (.program method))])]
          functions := Entries.insert "main" (.program program) Context.initial.functions } }
    (evaluate { natives := Native.standard, limit := 2 } program).run machine = (.error failure, after) ∧
      (evaluate { natives := Native.standard, limit := 256 } program).run machine =
        (.error failure, after) := by
  intro method program machine failure after
  have ran : (evaluate { natives := Native.standard, limit := 2 } program).run machine =
      (.error failure, after) := by
    unfold after machine program method failure
    rfl
  have enough : ∀ other, Except.error (α := Unit) failure = .error other →
      other.fault.kind ≠ .callDepthExceeded := by
    rintro other ⟨⟩
    decide
  exact ⟨ran, evaluate_limit { natives := Native.standard, limit := 2 } (by decide) ran enough⟩

end Machine

end StackScript
