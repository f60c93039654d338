/-
# StackScript.Proofs.Tracing — a trace changes nothing and shows the whole run

A machine that traces its run ends as one that does not (`Machine.evaluate_untraced`).

The frames of a run have an order: after a frame come the frames of the program that it
calls, and then the next frame of its own program. A `Machine.Course` is a list of frames
in this order. Every run has one that leaves nothing out, and the trace has a record for
each of its frames, made at the moment of the frame (`Machine.Chronicle`). What a record
says about those around it can be read off the course: the first record of a program
comes right after the one that called it, and before any other the latest record that is
not deeper is the one of the position before (`Machine.evaluate_records`).
-/
import StackScript.Host.Basic
import StackScript.Proofs.Frame

namespace StackScript

set_option autoImplicit false

variable {σ : Type}

/-! ## Lists, item by item -/

/-- What holds of each item, given the items before it. -/
def Stepwise {α : Type} (holds : List α → α → Prop) (items : List α) : Prop :=
  ∀ before item after, items = before ++ item :: after → holds before item

namespace Stepwise

variable {α : Type} {holds : List α → α → Prop}

theorem nil : Stepwise holds [] := by
  intro before item after whole
  simp at whole

theorem join {earlier inside : List α} {item : α} (first : Stepwise holds earlier)
    (here : holds earlier item)
    (later : Stepwise (fun before => holds (earlier ++ item :: before)) inside) :
    Stepwise holds (earlier ++ item :: inside) := by
  intro before other after whole
  rcases List.append_eq_append_iff.mp whole with ⟨middle, rfl, parts⟩ | ⟨middle, rfl, parts⟩
  · cases middle with
    | nil =>
      cases parts
      rwa [List.append_nil]
    | cons _ middle =>
      cases parts
      exact later middle other after rfl
  · cases middle with
    | nil =>
      cases parts
      rwa [List.append_nil] at here
    | cons _ middle =>
      cases parts
      exact first before _ middle rfl

/-- Items that differ from all those before them are there once. -/
theorem nodup {items : List α} (new : Stepwise (fun before item => item ∉ before) items) :
    items.Nodup := by
  induction items using List.reverseRecOn with
  | nil => exact .nil
  | append_singleton items item ih =>
    have others : items.Nodup := by
      refine ih fun before other after whole => new before other (after ++ [item]) ?_
      rw [whole, List.append_assoc, List.cons_append]
    have last : item ∉ items := new items item [] rfl
    refine List.nodup_append.mpr ⟨others, by simp, ?_⟩
    rintro other member _ here rfl
    cases List.mem_singleton.mp here
    exact last member

end Stepwise

/-! ## A call is settled by the machine -/

/-- The instruction calls a function, by name or as a method. -/
def Instruction.Calls (instruction : Instruction) : Prop :=
  (∃ text name, instruction = .token text (.call name)) ∨
    ∃ text path, instruction = .token text (.method path)

namespace Machine

theorem Invokes.calls {machine next : Machine σ} {instruction : Instruction} {body : Body}
    (invokes : Invokes machine instruction body next) : instruction.Calls := by
  cases invokes with
  | call found => exact .inl ⟨_, _, rfl⟩
  | method bound resolved found => exact .inr ⟨_, _, rfl⟩

theorem Invokes.unique {machine next next' : Machine σ} {instruction : Instruction} {body body' : Body}
    (first : Invokes machine instruction body next) (second : Invokes machine instruction body' next') :
    body' = body ∧ next' = next := by
  cases first with
  | call found =>
    cases second with
    | call found' =>
      cases found.symm.trans found'
      exact ⟨rfl, rfl⟩
  | method bound resolved found =>
    cases second with
    | method bound' resolved' found' =>
      cases bound.symm.trans bound'
      cases resolved.symm.trans resolved'
      cases found.symm.trans found'
      exact ⟨rfl, rfl⟩

variable [Host σ] {settings : Settings σ} {program : Program} {start : Machine σ}

theorem Comes.unique {position : Nat} {machine machine' : Machine σ}
    (first : Comes settings program start position machine)
    (second : Comes settings program start position machine') : machine' = machine := by
  induction first generalizing machine' with
  | begins _ _ =>
    cases second with
    | begins _ _ => rfl
  | goesOn _ current done ih =>
    cases second with
    | goesOn came current' done' =>
      cases ih came
      cases current.symm.trans current'
      cases done.symm.trans done'
      rfl

/-- A program that comes to a position has gone on from all those before it. -/
theorem Comes.through {position earlier : Nat} {machine : Machine σ}
    (came : Comes settings program start position machine) (before : earlier < position) :
    ∃ (frame : Frame σ) (after : Machine σ), frame.Of settings program start ∧ frame.position = earlier ∧
      frame.Does settings (.ok .next) after := by
  induction came with
  | begins _ _ => exact absurd before (Nat.not_lt_zero _)
  | @goesOn position instruction machine after came current done ih =>
    by_cases here : earlier = position
    · exact ⟨⟨program, position, instruction, machine, current⟩, after, ⟨rfl, came⟩, here.symm, done⟩
    · exact ih (by omega)

end Machine

namespace Frame

variable [Host σ] {settings : Settings σ} {program : Program} {start : Machine σ} {frame other : Frame σ}

theorem Of.unique (first : frame.Of settings program start) (second : other.Of settings program start)
    (same : other.position = frame.position) : other = frame := by
  obtain ⟨_, position, instruction, machine, current⟩ := frame
  obtain ⟨_, position', instruction', machine', current'⟩ := other
  obtain ⟨rfl, came⟩ := first
  obtain ⟨rfl, came'⟩ := second
  cases same
  cases came.unique came'
  cases current.symm.trans current'
  rfl

/-- What the trace records of a frame. -/
def record (frame : Frame σ) : TraceRecord σ where
  depth := frame.machine.depth
  position := frame.position
  instruction := frame.instruction
  stack := frame.machine.context.stack
  host := frame.machine.host

omit [Host σ] in
theorem now_trace (on : settings.tracing = true) (frame : Frame σ) :
    (frame.now settings).trace = frame.machine.trace ++ [frame.record] := by
  simp [now, Machine.observed, on, Machine.trace, record]

end Frame

namespace Machine

variable [Host σ]

/-! ## Tracing changes nothing -/

section Free

omit [Host σ]

theorem free_all (piece : Piece) : Piece.All Discipline.free.ok piece := by
  intro inner _
  unfold Discipline.ok
  split <;> trivial

theorem free_lawful : Discipline.free.Lawful := by
  refine ⟨trivial, fun _ _ _ => trivial, fun _ _ _ => trivial, fun _ => trivial, fun _ => trivial, ?_,
    fun _ _ _ => trivial, fun _ => trivial, fun _ => trivial, fun _ _ => .inr fun _ => trivial⟩
  intro text name functions body _ _ _
  cases body with
  | native name => trivial
  | program program => exact fun instruction _ => free_all _

theorem free_obeys (context : Context) : context.Obeys .free :=
  ⟨fun _ _ => free_all _, fun _ _ => trivial, fun _ _ => free_all _, trivial⟩

end Free

/-- **A run ends in the same way whether or not it is traced**, and with the same context and host.
The natives may be any. -/
theorem evaluate_untraced (settings : Settings σ) (tracing tracing' : Bool) (program : Program)
    (start : Machine σ) :
    let first := (evaluate { settings with tracing } program).run start
    let second := (evaluate { settings with tracing := tracing' } program).run start
    second.1 = first.1 ∧ second.2.context = first.2.context ∧ second.2.host = first.2.host := by
  have lawful : (Pairing.alone .free : Pairing σ σ).Lawful := Pairing.alone_lawful free_lawful
  have atop (context : Context) : context.atop [] = context := by
    rw [Context.atop, List.append_nil]
  have agree : (Pairing.alone .free).Agree { settings with tracing }
      { settings with tracing := tracing' } := by
    refine ⟨fun name _ => ?_, .inl rfl⟩
    intro x y sees
    obtain rfl : y = x := Prod.ext (sees.context.trans (atop x.1)) sees.host.symm
    refine .inr ⟨?_, _, rfl, (atop _).symm, rfl, free_obeys _⟩
    rcases (ExceptT.run (settings.natives name) y).1 with _ | _ <;> trivial
  have runs : Discipline.free.Runs program := fun instruction _ => free_all _
  have related : (Pairing.alone .free).Related start start :=
    ⟨(atop _).symm, rfl, rfl, free_obeys _⟩
  rcases evaluate_together lawful agree runs start start related with escaped | ⟨_, after, ran, ended⟩
  · revert escaped
    rcases (ExceptT.run (evaluate _ program) _).1 with _ | _ <;> exact False.elim
  · rw [ran]
    exact ⟨rfl, ended.context.trans (atop _), ended.host.symm⟩

/-! ## The course of a run -/

/-- The program, called on `start`, never comes as far as the position. -/
def StopsAt (settings : Settings σ) (program : Program) (start : Machine σ) (stop : Nat) : Prop :=
  ∀ frame : Frame σ, frame.Of settings program start → frame.position < stop

/-- The frames of a run before a position, in the order in which the run comes to them: those of
the program itself, and after each of them those of the program that it calls. -/
inductive Course (settings : Settings σ) : Program → Machine σ → Nat → List (Frame σ) → Prop
  | begins {program : Program} {start : Machine σ} : Course settings program start 0 []
  | alone {program : Program} {start : Machine σ} {earlier : List (Frame σ)} {frame : Frame σ}
      (before : Course settings program start frame.position earlier)
      (reached : frame.Of settings program start)
      (alone : ∀ inner next, ¬ frame.Invokes settings (.program inner) next) :
      Course settings program start (frame.position + 1) (earlier ++ [frame])
  | around {program inner : Program} {start next : Machine σ} {earlier inside : List (Frame σ)}
      {frame : Frame σ} {stop : Nat} (before : Course settings program start frame.position earlier)
      (reached : frame.Of settings program start)
      (invokes : frame.Invokes settings (.program inner) next)
      (within : Course settings inner next stop inside) (whole : StopsAt settings inner next stop) :
      Course settings program start (frame.position + 1) (earlier ++ frame :: inside)

variable {settings : Settings σ} {program : Program} {start : Machine σ}

/-- An instruction that does not go on is the last one. -/
theorem stopsAt_of_does {frame : Frame σ} (reached : frame.Of settings program start)
    {result : Except Failure Flow} {after : Machine σ} (done : frame.Does settings result after)
    (ends : result ≠ .ok .next) : StopsAt settings program start (frame.position + 1) := by
  intro other came
  by_contra beyond
  have passes : frame.position < other.position := by omega
  obtain ⟨passed, middle, reached', same, went⟩ := came.2.through passes
  cases reached.unique reached' same
  exact ends (congrArg Prod.fst (done.symm.trans went))

namespace Course

variable {position : Nat} {frames : List (Frame σ)}

theorem eq_nil (course : Course settings program start 0 frames) : frames = [] := by
  cases course
  rfl

/-- Every frame of a course is a frame of the run. -/
theorem dispatched (course : Course settings program start position frames) {frame : Frame σ}
    (member : frame ∈ frames) : Dispatches settings program start frame := by
  induction course with
  | begins => cases member
  | alone _ reached _ ih =>
    rcases List.mem_append.mp member with earlier | here
    · exact ih earlier
    · cases List.mem_singleton.mp here
      exact .own reached
  | around _ reached invokes _ _ ih inner =>
    rcases List.mem_append.mp member with earlier | here
    · exact ih earlier
    · rcases List.mem_cons.mp here with rfl | inside
      · exact .own reached
      · exact .called reached invokes (inner inside)

/-- The frame is among the frames, and so is the whole course of the program that it calls. -/
def Covers (settings : Settings σ) (frames : List (Frame σ)) (frame : Frame σ) : Prop :=
  frame ∈ frames ∧ ∀ inner next, frame.Invokes settings (.program inner) next →
    ∃ stop inside, Course settings inner next stop inside ∧ StopsAt settings inner next stop ∧
      ∀ other ∈ inside, other ∈ frames

theorem Covers.append {frame : Frame σ} (covered : Covers settings frames frame)
    (more : List (Frame σ)) : Covers settings (frames ++ more) frame := by
  refine ⟨List.mem_append_left more covered.1, fun inner next invokes => ?_⟩
  obtain ⟨stop, inside, course, whole, part⟩ := covered.2 inner next invokes
  exact ⟨stop, inside, course, whole, fun other member => List.mem_append_left more (part other member)⟩

/-- A course has all frames of its program before its position, each with those inside. -/
theorem covers (course : Course settings program start position frames) {frame : Frame σ}
    (reached : frame.Of settings program start) (before : frame.position < position) :
    Covers settings frames frame := by
  induction course with
  | begins => exact absurd before (Nat.not_lt_zero _)
  | @alone _ _ earlier last _ here alone ih =>
    by_cases same : frame.position = last.position
    · cases here.unique reached same
      exact ⟨by simp, fun inner next invokes => absurd invokes (alone inner next)⟩
    · exact (ih reached (by omega)).append _
  | @around _ inner _ next earlier inside last stop _ here invokes within whole ih _ =>
    by_cases same : frame.position = last.position
    · cases here.unique reached same
      refine ⟨by simp, fun inner' next' invokes' => ?_⟩
      -- the frame calls this program and no other
      obtain ⟨called, rfl⟩ := Invokes.unique invokes invokes'
      cases called
      exact ⟨stop, inside, within, whole, fun other member => by simp [member]⟩
    · exact (ih reached (by omega)).append _

/-- Every frame of the run is in a course that goes to the end. -/
theorem complete {frame : Frame σ} (dispatched : Dispatches settings program start frame)
    (course : Course settings program start position frames)
    (stops : StopsAt settings program start position) : frame ∈ frames := by
  induction dispatched generalizing position frames with
  | own reached => exact (course.covers reached (stops _ reached)).1
  | called reached invokes _ ih =>
    obtain ⟨stop, inside, inner, whole, part⟩ :=
      (course.covers reached (stops _ reached)).2 _ _ invokes
    exact part _ (ih inner whole)

end Course

/-! ## Every run leaves its course in the trace -/

/-- A course, and a machine whose trace has a record for each of its frames. Each frame found the
records of those before it. -/
structure Chronicle (settings : Settings σ) (program : Program) (start : Machine σ) (position : Nat)
    (frames : List (Frame σ)) (machine : Machine σ) : Prop where
  course : Course settings program start position frames
  moments : Stepwise (fun before frame => frame.machine.trace = start.trace ++ before.map Frame.record)
    frames
  trace : machine.trace = start.trace ++ frames.map Frame.record

/-- An instruction that calls no program leaves no other record than its own. -/
theorem alone_trace {frame : Frame σ} (alone : ∀ inner next, ¬ frame.Invokes settings (.program inner) next)
    {result : Except Failure Flow} {after : Machine σ} (done : frame.Does settings result after) :
    after.trace = (frame.now settings).trace := by
  have called {body : Body} {next after : Machine σ} {result : Except Failure Unit}
      (invokes : frame.Invokes settings body next)
      (ran : (invoke settings (evaluate settings) body).run next = (result, after)) :
      after.trace = (frame.now settings).trace := by
    have begun := congrArg List.reverse (Invokes.steady invokes fun _ => True).trace
    cases body with
    | program inner => exact absurd invokes (alone inner next)
    | native name =>
      rw [run_invoke_native] at ran
      rcases native : (settings.natives name).run (next.context, next.host) with ⟨_ | _, state⟩ <;>
        rw [native] at ran
      · cases ran
        exact begun
      · cases valid : state.1.isValid <;> simp only [valid, if_true] at ran <;> cases ran <;> exact begun
  cases done.outcome with
  | plain plain => exact congrArg List.reverse plain.steady.trace
  | returned invokes ran => exact called invokes ran
  | thrown invokes ran => exact called invokes ran

section Run

variable (on : settings.tracing = true)

include on

/-- One more frame of a program, whatever its instruction does. -/
theorem Chronicle.frame {frame : Frame σ} {earlier : List (Frame σ)}
    (reached : frame.Of settings program start)
    (before : Chronicle settings program start frame.position earlier frame.machine)
    (calls : ∀ inner next, frame.Invokes settings (.program inner) next →
      ∃ stop inside, StopsAt settings inner next stop ∧
        Chronicle settings inner next stop inside ((evaluate settings inner).run next).2)
    {result : Except Failure Flow} {after : Machine σ} (done : frame.Does settings result after) :
    ∃ frames, Chronicle settings program start (frame.position + 1) frames after := by
  have now : (frame.now settings).trace = start.trace ++ (earlier ++ [frame]).map Frame.record := by
    rw [frame.now_trace on, before.trace, List.map_append, List.append_assoc]
    rfl
  by_cases called : ∃ inner next, frame.Invokes settings (.program inner) next
  · obtain ⟨inner, next, invokes⟩ := called
    obtain ⟨stop, inside, whole, within⟩ := calls inner next invokes
    have begun : next.trace = start.trace ++ (earlier ++ [frame]).map Frame.record :=
      (congrArg List.reverse (Invokes.steady invokes fun _ => True).trace).trans now
    have ended : after = ((evaluate settings inner).run next).2 := by
      rw [Frame.Does, Invokes.runs invokes] at done
      rcases ran : (evaluate settings inner).run next with ⟨_ | _, middle⟩
      · have invoked : (invoke settings (evaluate settings) (.program inner)).run next = _ := ran
        rw [Work.run_bind_error invoked] at done
        cases done
        rfl
      · have invoked : (invoke settings (evaluate settings) (.program inner)).run next = _ := ran
        rw [Work.run_bind_ok invoked] at done
        cases done
        rfl
    refine ⟨earlier ++ frame :: inside, .around before.course reached invokes within.course whole,
      .join before.moments before.trace ?_, ?_⟩
    · intro middle other later split
      rw [within.moments middle other later split, begun]
      simp
    · rw [ended, within.trace, begun]
      simp
  · have alone : ∀ inner next, ¬ frame.Invokes settings (.program inner) next :=
      fun inner next invokes => called ⟨inner, next, invokes⟩
    refine ⟨earlier ++ [frame], .alone before.course reached alone,
      .join before.moments before.trace .nil, ?_⟩
    rw [alone_trace alone done, now]

/-- **Every run has a whole course, and leaves it in the trace.** -/
theorem evaluate_chronicle (program : Program) (start : Machine σ) :
    ∃ stop frames, StopsAt settings program start stop ∧
      Chronicle settings program start stop frames ((evaluate settings program).run start).2 := by
  -- by induction on the room for calls: a program that is called has less of it
  induction room : settings.limit - start.depth using Nat.strong_induction_on
    generalizing program start with
  | _ n ih =>
    have calls {frame : Frame σ} (reached : frame.Of settings program start) :
        ∀ inner next, frame.Invokes settings (.program inner) next →
          ∃ stop inside, StopsAt settings inner next stop ∧
            Chronicle settings inner next stop inside ((evaluate settings inner).run next).2 := by
      intro inner next invokes
      have deeper := reached.depth invokes
      have entry := reached.2.entry.2
      exact ih (settings.limit - next.depth) (by omega) inner next rfl
    have comes {position : Nat} {machine : Machine σ}
        (came : Comes settings program start position machine) :
        ∃ frames, Chronicle settings program start position frames machine := by
      induction came with
      | begins _ _ => exact ⟨[], .begins, .nil, (List.append_nil _).symm⟩
      | @goesOn position instruction machine after came current done before =>
        obtain ⟨earlier, before⟩ := before
        let frame : Frame σ := ⟨program, position, instruction, machine, current⟩
        have reached : frame.Of settings program start := ⟨rfl, came⟩
        have before : Chronicle settings program start frame.position earlier frame.machine := before
        exact before.frame on reached (calls reached) done
    have last {frame : Frame σ} {result : Except Failure Flow} {after : Machine σ}
        (reached : frame.Of settings program start) (done : frame.Does settings result after)
        (ends : result ≠ .ok .next) :
        ∃ stop frames, StopsAt settings program start stop ∧
          Chronicle settings program start stop frames after.left := by
      obtain ⟨earlier, before⟩ := comes reached.2
      obtain ⟨frames, chronicle⟩ := before.frame on reached (calls reached) done
      exact ⟨_, frames, stopsAt_of_does reached done ends, { chronicle with }⟩
    have ended := evaluate_ended settings program start
    generalize ((evaluate settings program).run start).1 = result at ended
    generalize ((evaluate settings program).run start).2 = after at ended ⊢
    cases ended with
    | refused invalid =>
      refine ⟨0, [], fun frame reached => ?_, .begins, .nil, (List.append_nil _).symm⟩
      exact absurd reached.2.entry.1 (by simp [invalid])
    | full valid full =>
      refine ⟨0, [], fun frame reached => ?_, .begins, .nil, (List.append_nil _).symm⟩
      exact absurd reached.2.entry.2 (by omega)
    | finished came =>
      obtain ⟨frames, chronicle⟩ := comes came
      refine ⟨_, frames, fun frame reached => ?_, { chronicle with }⟩
      have current := frame.current
      rw [reached.1] at current
      exact (List.getElem?_eq_some_iff.mp current).1
    | left reached done => exact last reached done (by intro same; cases same)
    | failed reached done => exact last reached done (by intro same; cases same)

end Run

/-! ## The records of a course -/

/-- A frame of a run is deeper than the machine was before the run, and within the limit. -/
theorem Dispatches.depth {frame : Frame σ} (dispatched : Dispatches settings program start frame) :
    start.depth < frame.machine.depth ∧ frame.machine.depth ≤ settings.limit := by
  induction dispatched with
  | own reached =>
    have level := reached.2.depth
    have entry := reached.2.entry.2
    omega
  | called reached invokes _ ih =>
    have deeper := reached.depth invokes
    omega

omit [Host σ] in
/-- How a record of a run that begins inside `outer` programs stands to those before it. -/
structure Follows (outer : Nat) (before : List (TraceRecord σ)) (record : TraceRecord σ) : Prop where
  first : record.position = 0 → (before = [] ∧ record.depth = outer + 1) ∨
    ∃ earlier caller, before = earlier ++ [caller] ∧ outer < caller.depth ∧
      caller.depth + 1 = record.depth ∧ caller.instruction.Calls
  later : 0 < record.position → ∃ earlier previous between, before = earlier ++ previous :: between ∧
    previous.depth = record.depth ∧ previous.position + 1 = record.position ∧
      ∀ other ∈ between, record.depth < other.depth

omit [Host σ] in
/-- The records of a program that is called, behind those of its caller. -/
theorem Follows.inside {outer : Nat} {before : List (TraceRecord σ)} {record caller : TraceRecord σ}
    (follows : Follows (outer + 1) before record) (level : caller.depth = outer + 1)
    (calls : caller.instruction.Calls) (earlier : List (TraceRecord σ)) :
    Follows outer (earlier ++ caller :: before) record where
  first zero := by
    right
    rcases follows.first zero with ⟨rfl, depth⟩ | ⟨others, inner, rfl, deep, depth, called⟩
    · exact ⟨earlier, caller, rfl, by omega, by omega, calls⟩
    · exact ⟨earlier ++ caller :: others, inner, by simp, by omega, depth, called⟩
  later positive := by
    obtain ⟨others, previous, between, rfl, rest⟩ := follows.later positive
    exact ⟨earlier ++ caller :: others, previous, between, by simp, rest⟩

namespace Course

variable {position : Nat} {frames : List (Frame σ)}

/-- The last frame of the program itself, with deeper ones behind it. -/
theorem last (course : Course settings program start (position + 1) frames) :
    ∃ earlier frame inside, frames = earlier ++ frame :: inside ∧ frame.position = position ∧
      frame.machine.depth = start.depth + 1 ∧
      ∀ other ∈ inside, start.depth + 1 < other.machine.depth := by
  cases course with
  | @alone _ _ earlier frame _ reached _ =>
    exact ⟨earlier, frame, [], rfl, rfl, reached.2.depth, nofun⟩
  | @around _ _ _ _ earlier inside frame _ _ reached invokes within _ =>
    refine ⟨earlier, frame, inside, rfl, rfl, reached.2.depth, fun other member => ?_⟩
    have deeper := reached.depth invokes
    have inner := (within.dispatched member).depth.1
    omega

theorem follows {frame : Frame σ} (course : Course settings program start frame.position frames)
    (reached : frame.Of settings program start) :
    Follows start.depth (frames.map Frame.record) frame.record where
  first zero := by
    have here : frame.position = 0 := zero
    rw [here] at course
    exact .inl ⟨by rw [course.eq_nil]; rfl, reached.2.depth⟩
  later positive := by
    obtain ⟨position, here⟩ := Nat.exists_eq_add_one_of_ne_zero (Nat.ne_of_gt positive)
    have here : frame.position = position + 1 := here
    rw [here] at course
    obtain ⟨earlier, previous, inside, rfl, before, level, deeper⟩ := course.last
    have own : frame.machine.depth = start.depth + 1 := reached.2.depth
    refine ⟨earlier.map Frame.record, previous.record, inside.map Frame.record, by simp,
      level.trans own.symm, ?_, ?_⟩
    · show previous.position + 1 = frame.position
      omega
    · intro other member
      obtain ⟨inner, within, rfl⟩ := List.mem_map.mp member
      have deep := deeper inner within
      show frame.machine.depth < inner.machine.depth
      omega

/-- Every record of a course follows those before it as it should. -/
theorem records (course : Course settings program start position frames) :
    Stepwise (Follows start.depth) (frames.map Frame.record) := by
  induction course with
  | begins => exact .nil
  | alone before reached _ ih =>
    rw [List.map_append]
    exact .join ih (before.follows reached) .nil
  | @around _ _ _ next _ _ frame _ before reached invokes _ _ ih inner =>
    rw [List.map_append, List.map_cons]
    refine .join ih (before.follows reached) ?_
    rw [reached.depth invokes] at inner
    intro middle record later split
    have calls : frame.record.instruction.Calls := Invokes.calls invokes
    exact (inner middle record later split).inside reached.2.depth calls _

end Course

/-- **Tracing changes nothing and shows the whole run, well nested.** With and without tracing, a run
ends in the same way and leaves the same context and host. On a machine outside all programs, the
trace grows by one record for each frame of the run, in the order of the run. Depths lie between one
and the limit. The first record is that of position 0 at depth 1. Any other record of position 0 comes
right after a record one level up whose instruction is a call, and before a record of a later position
the latest record that is not deeper is that of the position before it, at the same depth. -/
theorem evaluate_records (settings : Settings σ) (program : Program) (start : Machine σ) :
    let traced := (evaluate { settings with tracing := true } program).run start
    let untraced := (evaluate { settings with tracing := false } program).run start
    (traced.1 = untraced.1 ∧ traced.2.context = untraced.2.context ∧
      traced.2.host = untraced.2.host) ∧
    (start.depth = 0 → ∃ frames : List (Frame σ),
      traced.2.trace = start.trace ++ frames.map Frame.record ∧ frames.Nodup ∧
      (∀ frame, frame ∈ frames ↔
        Dispatches { settings with tracing := true } program start frame) ∧
      (∀ before frame after, frames = before ++ frame :: after →
        frame.machine.trace = start.trace ++ before.map Frame.record) ∧
      (∀ record ∈ frames.map Frame.record, 1 ≤ record.depth ∧ record.depth ≤ settings.limit) ∧
      ∀ before record after, frames.map Frame.record = before ++ record :: after →
        (before = [] → record.depth = 1 ∧ record.position = 0) ∧
        (before ≠ [] → record.position = 0 → 2 ≤ record.depth ∧
          ∃ earlier caller, before = earlier ++ [caller] ∧ caller.depth + 1 = record.depth ∧
            caller.instruction.Calls) ∧
        (0 < record.position →
          ∃ earlier previous between, before = earlier ++ previous :: between ∧
            previous.depth = record.depth ∧ previous.position + 1 = record.position ∧
            ∀ other ∈ between, record.depth < other.depth)) := by
  intro traced untraced
  refine ⟨evaluate_untraced settings false true program start, fun outside => ?_⟩
  have on : Settings.tracing { settings with tracing := true } = true := rfl
  obtain ⟨stop, frames, stops, chronicle⟩ := evaluate_chronicle on program start
  refine ⟨frames, chronicle.trace, ?_, ?_, chronicle.moments, ?_, ?_⟩
  · -- a frame finds one record more than the one before it
    refine Stepwise.nodup fun before frame after whole again => ?_
    obtain ⟨first, second, rfl⟩ := List.append_of_mem again
    have late := chronicle.moments _ frame after whole
    have early := chronicle.moments first frame (second ++ frame :: after) (by simp [whole])
    have same := congrArg List.length (early.symm.trans late)
    simp at same
  · intro frame
    exact ⟨chronicle.course.dispatched, fun dispatched => Course.complete dispatched chronicle.course stops⟩
  · intro record member
    obtain ⟨frame, within, rfl⟩ := List.mem_map.mp member
    obtain ⟨deep, limited⟩ := (chronicle.course.dispatched within).depth
    exact ⟨Nat.succ_le_of_lt (Nat.zero_lt_of_lt deep), limited⟩
  · intro before record after whole
    have follows := chronicle.course.records before record after whole
    rw [outside] at follows
    refine ⟨?_, ?_, follows.later⟩
    · rintro rfl
      rcases Nat.eq_zero_or_pos record.position with zero | positive
      · rcases follows.first zero with ⟨_, depth⟩ | ⟨_, _, nothing, _⟩
        · exact ⟨depth, zero⟩
        · simp at nothing
      · obtain ⟨_, _, _, nothing, _⟩ := follows.later positive
        simp at nothing
    · intro some zero
      rcases follows.first zero with ⟨none, _⟩ | ⟨earlier, caller, split, deep, depth, calls⟩
      · exact absurd none some
      · exact ⟨by omega, earlier, caller, split, depth, calls⟩

/-- A function that returns halfway: what follows its `#return` has no record, and the caller goes on. -/
theorem evaluate_records_return :
    let settings : Settings Transcript := { natives := Native.standard, tracing := true }
    let program : Program := [.token "f" (.call "f"), .token "#nop" (.control .nop)]
    let function : Program :=
      [.token "#nop" (.control .nop), .token "#return" (.control .leave), .token "g" (.call "g")]
    let start : Machine Transcript :=
      { host := {}, context := { functions := [("f", .program function)] } }
    let traced := (evaluate settings program).run start
    start.depth = 0 ∧
      traced.2.trace.map (fun record => (record.depth, record.position)) =
        [(1, 0), (2, 0), (2, 1), (1, 1)] ∧
      ∃ frames : List (Frame Transcript), traced.2.trace = frames.map Frame.record ∧ frames.length = 4 ∧
        ∀ frame, frame ∈ frames ↔ Dispatches settings program start frame := by
  intro settings program function start traced
  have places : traced.2.trace.map (fun record => (record.depth, record.position)) =
      [(1, 0), (2, 0), (2, 1), (1, 1)] := by
    unfold traced start function program settings
    rfl
  obtain ⟨frames, trace, _, each, _⟩ := (evaluate_records settings program start).2 rfl
  have trace : traced.2.trace = frames.map Frame.record := trace
  have counted := congrArg List.length places
  rw [List.length_map, trace] at counted
  exact ⟨rfl, places, frames, trace, by simpa using counted, each⟩

end Machine

end StackScript
