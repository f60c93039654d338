/-
# StackScript.Proofs.Hosts — one source on two hosts

A program learns about its host only from the answers to its questions. Two hosts are
alike under a relation when they give the same answers and stay in the relation under
everything that a program can do to them; a source then runs in the same way on both
(`Machine.runSource_alike`), whether or not either machine traces its run.

A recorder is a host that passes every call on to another host and keeps a list of the
calls. It is alike the host behind it, so that a recorded run is the run itself
(`Machine.runSource_recorded`).
-/
import StackScript.Proofs.Frame
import StackScript.Proofs.Session

namespace StackScript

set_option autoImplicit false

variable {σ τ : Type}

/-! ## Hosts that answer alike -/

/-- Related hosts give the same answers and stay related, whatever is done to both. -/
structure Host.Alike [Host σ] [Host τ] (related : σ → τ → Prop) : Prop where
  emit : ∀ {first : σ} {second : τ} (line : String), related first second →
    related (Host.emit line first) (Host.emit line second)
  clear : ∀ {first : σ} {second : τ}, related first second →
    related (Host.clear first) (Host.clear second)
  ask : ∀ {first : σ} {second : τ} (message : String), related first second →
    (Host.ask message second).1 = (Host.ask message first).1 ∧
      related (Host.ask message first).2 (Host.ask message second).2

namespace Pairing

/-- Two machines in the same context, on related hosts. -/
def beside (related : σ → τ → Prop) : Pairing σ τ where
  discipline := .session
  beneath := []
  hosts := related
  escapes _ := False

theorem beside_lawful [Host σ] [Host τ] {related : σ → τ → Prop} (alike : Host.Alike related) :
    (beside related).Lawful where
  discipline := Discipline.session_lawful
  emit := alike.emit
  clear := alike.clear
  ask := alike.ask
  within _ := id
  underflow := .inl rfl
  flush _ := rfl
  stackDump _ := rfl

end Pairing

namespace Machine

/-- **A source runs in the same way on hosts that are alike**, with the same room for
calls. Neither the contexts that the machines were in nor their traces matter. -/
theorem runSource_alike [Host σ] [Host τ] {related : σ → τ → Prop} (alike : Host.Alike related)
    (limit : Nat) (tracing tracing' : Bool) (source : String) {x : Machine σ} {y : Machine τ}
    (hosts : related x.host y.host) (depth : y.depth = x.depth) :
    let first := (runSource { natives := Native.standard, limit, tracing } source).run x
    let second :=
      (runSource { natives := Native.standard, limit, tracing := tracing' } source).run y
    second.1 = first.1 ∧ related first.2.host second.2.host := by
  have parsed := Program.parse_ends source
  unfold runSource
  cases read : Program.parse source with
  | error fault => exact ⟨rfl, hosts⟩
  | ok program =>
    rw [read] at parsed
    have lawful := Pairing.beside_lawful alike
    have agree : (Pairing.beside related).Agree
        { natives := Native.standard, limit, tracing }
        { natives := Native.standard, limit, tracing := tracing' } :=
      ⟨fun name allowed => Native.standard_together lawful name allowed, .inl rfl⟩
    -- both runs begin in the initial context, whatever came before
    have begun : (Pairing.beside related).Related { x with context := Context.initial }
        { y with context := Context.initial } :=
      ⟨rfl, hosts, depth, Context.initial_obeys⟩
    rcases evaluate_together lawful agree parsed _ _ begun with escaped | ⟨_, after, ran, ended⟩
    · revert escaped
      rcases (ExceptT.run (evaluate _ program) _).1 with _ | _ <;> exact False.elim
    · have same := congrArg Prod.fst ran
      have host := congrArg (·.2.host) ran
      exact ⟨same, host ▸ ended.host⟩

/-- What lasts holds between the beginning and the end of a source. -/
theorem Lasting.runSource [Host σ] {settings : Settings σ} {kept : Machine σ → Machine σ → Prop}
    (lasting : Lasting settings kept) (source : String) (machine : Machine σ) :
    kept machine ((Machine.runSource settings source).run machine).2 := by
  unfold Machine.runSource
  cases Program.parse source with
  | error fault => exact lasting.refl machine
  | ok program =>
    have begun := lasting.changed machine (Context.initial, machine.host)
    exact lasting.trans begun (lasting.evaluate program _)

end Machine

/-! ## Recorders -/

/-- What is done to a host. -/
inductive Event where
  | emit (line : String)
  | clear
  | ask (message : String)
deriving DecidableEq

/-- A host, and the calls made on it. -/
structure Recorded (σ : Type) where
  host : σ
  /-- The calls so far, newest first. -/
  newestCalls : List Event := []

namespace Recorded

/-- The calls in order. -/
def calls (recorded : Recorded σ) : List Event :=
  recorded.newestCalls.reverse

variable [Host σ]

instance : Host (Recorded σ) where
  emit line recorded :=
    { host := Host.emit line recorded.host, newestCalls := .emit line :: recorded.newestCalls }
  clear recorded :=
    { host := Host.clear recorded.host, newestCalls := .clear :: recorded.newestCalls }
  ask message recorded :=
    let (answer, host) := Host.ask message recorded.host
    (answer, { host, newestCalls := .ask message :: recorded.newestCalls })

theorem alike : Host.Alike fun (host : σ) (recorded : Recorded σ) => recorded.host = host where
  emit line same := congrArg (Host.emit line) same
  clear same := congrArg Host.clear same
  ask _ same := same ▸ ⟨rfl, rfl⟩

end Recorded

namespace Machine

/-- The machine with a recorder before its host, which has recorded nothing yet. -/
def recorded (machine : Machine σ) : Machine (Recorded σ) :=
  { context := machine.context, host := { host := machine.host }, depth := machine.depth }

/-- A recorded run ends as the run itself does, and with the same host. -/
theorem runSource_recorded [Host σ] (limit : Nat) (tracing : Bool) (source : String)
    (machine : Machine σ) :
    let plain := (runSource { natives := Native.standard, limit, tracing } source).run machine
    let watched :=
      (runSource { natives := Native.standard, limit, tracing } source).run machine.recorded
    watched.1 = plain.1 ∧ watched.2.host.host = plain.2.host :=
  runSource_alike Recorded.alike limit tracing tracing source rfl rfl

end Machine

end StackScript
