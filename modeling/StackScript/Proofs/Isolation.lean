/-
# StackScript.Proofs.Isolation — sources that follow each other do not meet

One machine may run source after source, and each begins in the initial context. Nothing
else passes from one to the next but the host: however an earlier source ended, it left
the machine outside of every program (`Machine.runSources_depth`). A source therefore
runs as on a new machine that is given the answers still in the queue
(`Machine.runSource_isolated`); what was emitted or asked before it cannot be seen.
-/
import StackScript.Host.Basic
import StackScript.Proofs.Hosts

namespace StackScript

set_option autoImplicit false

/-- The machine after a number of sources. -/
def Machine.runSources {σ : Type} [Host σ] (settings : Settings σ) (machine : Machine σ)
    (sources : List String) : Machine σ :=
  sources.foldl (fun machine source => ((runSource settings source).run machine).2) machine

/-- What lasts holds between the beginning of the first source and the end of the last. -/
theorem Machine.Lasting.runSources {σ : Type} [Host σ] {settings : Settings σ}
    {kept : Machine σ → Machine σ → Prop} (lasting : Lasting settings kept)
    (sources : List String) (machine : Machine σ) :
    kept machine (machine.runSources settings sources) := by
  induction sources generalizing machine with
  | nil => exact lasting.refl machine
  | cons source sources ih =>
    exact lasting.trans (lasting.runSource source machine) (ih _)

/-- The machine is inside as many programs as before the sources. -/
theorem Machine.runSources_depth {σ : Type} [Host σ] (settings : Settings σ)
    (machine : Machine σ) (sources : List String) :
    (machine.runSources settings sources).depth = machine.depth :=
  (lasting_depth settings).runSources sources machine

/-! ## What a source sees of a transcript -/

theorem Transcript.askFrom_prompts (message : String) (prompts prompts' answers : List String) :
    (askFrom message prompts' answers).1 = (askFrom message prompts answers).1 ∧
      (askFrom message prompts' answers).2.2 = (askFrom message prompts answers).2.2 := by
  induction answers generalizing prompts prompts' with
  | nil => exact ⟨rfl, rfl⟩
  | cons answer answers ih =>
    simp only [askFrom]
    split
    · exact ih _ _
    · exact ⟨rfl, rfl⟩

/-- Two recorded transcripts with the same queue and the same calls. -/
structure Recorded.Agree (first second : Recorded Transcript) : Prop where
  answers : second.host.answers = first.host.answers
  calls : second.newestCalls = first.newestCalls

/-- Only the queue of a transcript has a say in its answers. -/
theorem Recorded.agree_alike : Host.Alike Recorded.Agree where
  emit line agree := ⟨agree.answers, congrArg (.emit line :: ·) agree.calls⟩
  clear agree := ⟨agree.answers, congrArg (.clear :: ·) agree.calls⟩
  ask {first second} message agree := by
    have asked := Transcript.askFrom_prompts message first.host.newestPrompts
      second.host.newestPrompts first.host.answers
    have answers := agree.answers
    simp only [Host.ask, answers]
    exact ⟨asked.1, asked.2, congrArg (.ask message :: ·) agree.calls⟩

/-! ## Isolation -/

namespace Machine

/-- **Sources that follow each other are isolated.** After any sources, however they ended,
a source ends as it does on a new machine with the answers still in the queue. It makes the
same calls on the host in the same order, and leaves the same answers. Recording the calls
changes neither run. -/
theorem runSource_isolated (limit : Nat) (tracing tracing' : Bool) (context : Context)
    (host : Transcript) (earlier : List String) (source : String) :
    let used := runSources { natives := Native.standard, limit, tracing } { context, host } earlier
    let fresh : Machine Transcript := { host := .ofAnswers used.host.answers }
    let ran := (runSource { natives := Native.standard, limit, tracing } source).run used
    let ran' :=
      (runSource { natives := Native.standard, limit, tracing := tracing' } source).run fresh
    let watched :=
      (runSource { natives := Native.standard, limit, tracing } source).run used.recorded
    let watched' :=
      (runSource { natives := Native.standard, limit, tracing := tracing' } source).run
        fresh.recorded
    ran.1 = ran'.1 ∧ ran.2.host.answers = ran'.2.host.answers ∧
      watched.2.host.calls = watched'.2.host.calls ∧
      (watched.1 = ran.1 ∧ watched.2.host.host = ran.2.host) ∧
      watched'.1 = ran'.1 ∧ watched'.2.host.host = ran'.2.host := by
  intro used fresh ran ran' watched watched'
  have idle : used.depth = 0 := runSources_depth _ _ earlier
  have watching : watched.1 = ran.1 ∧ watched.2.host.host = ran.2.host :=
    runSource_recorded limit tracing source used
  have watching' : watched'.1 = ran'.1 ∧ watched'.2.host.host = ran'.2.host :=
    runSource_recorded limit tracing' source fresh
  obtain ⟨result, answers, calls⟩ : watched'.1 = watched.1 ∧
      Recorded.Agree watched.2.host watched'.2.host :=
    runSource_alike Recorded.agree_alike limit tracing tracing' source ⟨rfl, rfl⟩ idle.symm
  refine ⟨?_, ?_, ?_, watching, watching'⟩
  · rw [← watching.1, ← watching'.1, result]
  · rw [← watching.2, ← watching'.2, answers]
  · rw [Recorded.calls, Recorded.calls, calls]

end Machine

end StackScript
