/-
# StackScript.Proofs.Work — assertions for work that may fail

Everything a machine does is work on a state that may fail and keeps what it did
before a failure: on a stack, on a context with its host, on the whole machine.
Two kinds of assertion are enough for all three.

* `Ensures kept fails returns work`: from a state that is `kept` the work ends in
  a `kept` state, with a result that `returns` or a failure that `fails`;
* `InStep related escapes fails returns first second`: from related states two pieces
  of work end in the same way and in related states, unless the first one `escapes`.

Each has one rule for every way to put work together, so that a statement about a
definition follows the definition.
-/
import StackScript.Context

namespace StackScript.Work

set_option autoImplicit false

variable {ε s t α β : Type}

/-! ## Running -/

@[simp] theorem run_pure (result : α) (state : s) :
    (pure result : ExceptT ε (StateM s) α).run state = (.ok result, state) := rfl

theorem run_throw (failure : ε) (state : s) :
    (throw failure : ExceptT ε (StateM s) α).run state = (.error failure, state) := rfl

@[simp] theorem run_ofExcept (found : Except ε α) (state : s) :
    (MonadExcept.ofExcept found : ExceptT ε (StateM s) α).run state = (found, state) := by
  cases found <;> rfl

theorem run_bind (work : ExceptT ε (StateM s) α) (next : α → ExceptT ε (StateM s) β) (state : s) :
    (work >>= next).run state =
      match work.run state with
      | (.ok result, middle) => (next result).run middle
      | (.error failure, middle) => (.error failure, middle) := by
  change (match work.run state with
    | (result, middle) => (ExceptT.bindCont next result).run middle) = _
  rcases work.run state with ⟨_ | _, _⟩ <;> rfl

theorem run_bind_ok {work : ExceptT ε (StateM s) α} {state middle : s} {result : α}
    (ran : work.run state = (.ok result, middle)) (next : α → ExceptT ε (StateM s) β) :
    (work >>= next).run state = (next result).run middle := by
  rw [run_bind, ran]

theorem run_bind_error {work : ExceptT ε (StateM s) α} {state middle : s} {failure : ε}
    (ran : work.run state = (.error failure, middle)) (next : α → ExceptT ε (StateM s) β) :
    (work >>= next).run state = (.error failure, middle) := by
  rw [run_bind, ran]

/-- Work that succeeds has succeeded in both its parts. -/
theorem of_run_bind_ok {work : ExceptT ε (StateM s) α} {next : α → ExceptT ε (StateM s) β}
    {state after : s} {result : β} (ran : (work >>= next).run state = (.ok result, after)) :
    ∃ first middle, work.run state = (.ok first, middle) ∧
      (next first).run middle = (.ok result, after) := by
  rw [run_bind] at ran
  rcases begun : work.run state with ⟨failure | first, middle⟩ <;> rw [begun] at ran
  · cases ran
  · exact ⟨first, middle, rfl, ran⟩

theorem length_mapM {each : α → ExceptT ε (StateM s) β} {items : List α} {state after : s}
    {results : List β} (ran : (items.mapM each).run state = (.ok results, after)) :
    results.length = items.length := by
  induction items generalizing state after results with
  | nil =>
    cases ran
    rfl
  | cons item items ih =>
    rw [List.mapM_cons] at ran
    obtain ⟨_, _, _, ran⟩ := of_run_bind_ok ran
    obtain ⟨_, _, later, ended⟩ := of_run_bind_ok ran
    cases ended
    rw [List.length_cons, List.length_cons, ih later]

/-- Work is what its runs are. -/
theorem ext {first second : ExceptT ε (StateM s) α}
    (same : ∀ state, first.run state = second.run state) : first = second :=
  funext same

/-! ## One run -/

/-- A result has a property, a failure another. -/
def Ends (fails : ε → Prop) (returns : α → Prop) : Except ε α → Prop
  | .ok result => returns result
  | .error failure => fails failure

theorem Ends.mono {fails fails' : ε → Prop} {returns returns' : α → Prop} {result : Except ε α}
    (ended : Ends fails returns result) (bad : ∀ failure, fails failure → fails' failure)
    (good : ∀ result, returns result → returns' result) : Ends fails' returns' result := by
  cases result with
  | error failure => exact bad failure ended
  | ok result => exact good result ended

/-- What work promises for every state that is `kept`. -/
def Ensures (kept : s → Prop) (fails : ε → Prop) (returns : α → Prop)
    (work : ExceptT ε (StateM s) α) : Prop :=
  ∀ state, kept state → kept (work.run state).2 ∧ Ends fails returns (work.run state).1

namespace Ensures

variable {kept : s → Prop} {fails : ε → Prop} {returns : α → Prop}

theorem pure {result : α} (good : returns result) :
    Ensures kept fails returns (Pure.pure result : ExceptT ε (StateM s) α) :=
  fun _ holds => ⟨holds, good⟩

theorem throw {failure : ε} (bad : fails failure) :
    Ensures kept fails returns (MonadExcept.throw failure : ExceptT ε (StateM s) α) :=
  fun _ holds => ⟨holds, bad⟩

theorem ofExcept {found : Except ε α} (ended : Ends fails returns found) :
    Ensures kept fails returns (MonadExcept.ofExcept found : ExceptT ε (StateM s) α) := by
  intro state holds
  rw [run_ofExcept]
  exact ⟨holds, ended⟩

theorem bind {work : ExceptT ε (StateM s) α} {next : α → ExceptT ε (StateM s) β}
    {ends : β → Prop} (first : Ensures kept fails returns work)
    (rest : ∀ result, returns result → Ensures kept fails ends (next result)) :
    Ensures kept fails ends (work >>= next) := by
  intro state holds
  obtain ⟨holds, good⟩ := first state holds
  rw [run_bind]
  rcases ran : work.run state with ⟨_ | result, middle⟩ <;> rw [ran] at holds good
  · exact ⟨holds, good⟩
  · exact rest result good middle holds

theorem mapM {ends : β → Prop} {each : α → ExceptT ε (StateM s) β} {items : List α}
    (ensured : ∀ item ∈ items, Ensures kept fails ends (each item)) :
    Ensures kept fails (fun results => ∀ result ∈ results, ends result) (items.mapM each) := by
  induction items with
  | nil => exact .pure nofun
  | cons item items ih =>
    rw [List.mapM_cons]
    refine .bind (ensured item List.mem_cons_self) fun result good => ?_
    refine .bind (ih fun item member => ensured item (List.mem_cons_of_mem _ member))
      fun results others => ?_
    exact .pure (List.forall_mem_cons.mpr ⟨good, others⟩)

end Ensures

/-! ## Two runs -/

/-- Two pieces of work go together from related states: both end in the same way, as
promised, and their states are related again. Nothing is promised when the first one
`escapes`. -/
def InStep (related : s → t → Prop) (escapes fails : ε → Prop) (returns : α → Prop)
    (first : ExceptT ε (StateM s) α) (second : ExceptT ε (StateM t) α) : Prop :=
  ∀ x y, related x y →
    Ends escapes (fun _ => False) (first.run x).1 ∨
      Ends fails returns (first.run x).1 ∧
        ∃ y', second.run y = ((first.run x).1, y') ∧ related (first.run x).2 y'

namespace InStep

variable {related : s → t → Prop} {escapes fails : ε → Prop} {returns : α → Prop}

theorem pure {result : α} (good : returns result) :
    InStep related escapes fails returns (Pure.pure result : ExceptT ε (StateM s) α)
      (Pure.pure result : ExceptT ε (StateM t) α) :=
  fun _ y together => .inr ⟨good, y, rfl, together⟩

theorem throw {failure : ε} (bad : fails failure) :
    InStep related escapes fails returns (MonadExcept.throw failure : ExceptT ε (StateM s) α)
      (MonadExcept.throw failure : ExceptT ε (StateM t) α) :=
  fun _ y together => .inr ⟨bad, y, rfl, together⟩

theorem bind {ends : β → Prop} {first : ExceptT ε (StateM s) α} {second : ExceptT ε (StateM t) α}
    {next : α → ExceptT ε (StateM s) β} {next' : α → ExceptT ε (StateM t) β}
    (starts : InStep related escapes fails returns first second)
    (rest : ∀ result, returns result →
      InStep related escapes fails ends (next result) (next' result)) :
    InStep related escapes fails ends (first >>= next) (second >>= next') := by
  intro x y together
  have started := starts x y together
  rw [run_bind]
  rcases ran : first.run x with ⟨failure | result, x'⟩ <;> simp only [ran] at started ⊢
  · rcases started with escaped | ⟨bad, y', ran', together⟩
    · exact .inl escaped
    · exact .inr ⟨bad, y', run_bind_error ran' next', together⟩
  · rcases started with impossible | ⟨good, y', ran', together⟩
    · exact impossible.elim
    · rw [run_bind_ok ran' next']
      exact rest result good x' y' together

/-- Work inside other work: the states go in, the results come out with their
failures passed on, and the relation holds again outside. -/
theorem wrap {s' t' : Type} {outside : s' → t' → Prop}
    {first : ExceptT ε (StateM s) α} {second : ExceptT ε (StateM t) α}
    {outer : ExceptT ε (StateM s') α} {outer' : ExceptT ε (StateM t') α}
    (inner : InStep related escapes fails returns first second)
    (into : s' → s) (into' : t' → t) (out : s' → s → s') (out' : t' → t → t') (pass : ε → ε)
    (runs : ∀ x, outer.run x = ((first.run (into x)).1.mapError pass, out x (first.run (into x)).2))
    (runs' : ∀ y, outer'.run y =
      ((second.run (into' y)).1.mapError pass, out' y (second.run (into' y)).2))
    (enters : ∀ x y, outside x y → related (into x) (into' y))
    (leaves : ∀ x y x' y', outside x y → related x' y' → outside (out x x') (out' y y'))
    (escaping : ∀ failure, escapes failure → escapes (pass failure))
    (failing : ∀ failure, fails failure → fails (pass failure)) :
    InStep outside escapes fails returns outer outer' := by
  intro x y together
  have ended := inner (into x) (into' y) (enters x y together)
  rw [runs]
  rcases ran : first.run (into x) with ⟨failure | result, x'⟩ <;> simp only [ran] at ended
  · rcases ended with escaped | ⟨bad, y', ran', inside⟩
    · exact .inl (escaping failure escaped)
    · exact .inr ⟨failing failure bad, out' y y', by rw [runs', ran'],
        leaves x y x' y' together inside⟩
  · rcases ended with impossible | ⟨good, y', ran', inside⟩
    · exact impossible.elim
    · exact .inr ⟨good, out' y y', by rw [runs', ran'], leaves x y x' y' together inside⟩

end InStep

end StackScript.Work
