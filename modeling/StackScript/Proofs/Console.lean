/-
# StackScript.Proofs.Console — the same program on a terminal and in memory

A terminal reads lines of bytes and a transcript takes answers from a queue, and each
has its own way to go on asking. Given the lines of one text, trimmed at their ends, they
stay abreast (`abreast_alike`): there is one sequence of events, of which the terminal
has written the rendering, and the transcript has kept the messages and those lines that
are still standing. So a command that runs a file writes what can be read off the run in
memory (`Command.run_abreast`).

An event is an attempt here: a question that is put again because the answer was empty
is two events.
-/
import Mathlib.Data.List.DropRight
import StackScript.Command.Execute
import StackScript.Host.Basic
import StackScript.Proofs.Hosts
import StackScript.Proofs.Lines

namespace StackScript

set_option autoImplicit false

/-! ## Events as they are seen -/

namespace Event

/-- What a terminal shows of an event. -/
def rendering : Event → String
  | .emit line => line ++ "\n"
  | .clear => "\x1b[2J\x1b[H"
  | .ask message => message ++ " "

def emitted? : Event → Option String
  | .emit line => some line
  | _ => none

def asked? : Event → Option String
  | .ask message => some message
  | _ => none

/-- Everything that a terminal shows of events. -/
def renderings (events : List Event) : String :=
  String.join (events.map rendering)

/-- The messages of the questions among events. -/
def asked (events : List Event) : List String :=
  events.filterMap asked?

/-- The lines emitted after the last clearing. -/
def standing (events : List Event) : List String :=
  (events.rtakeWhile (· ≠ .clear)).filterMap emitted?

end Event

/-! ## A terminal and a transcript -/

/-- Both hosts have seen the same events, here with the newest first. -/
structure Seen (newest : List Event) (terminal : Terminal) (transcript : Transcript) : Prop where
  output : terminal.newestOutput = newest.map Event.rendering
  prompts : transcript.newestPrompts = newest.filterMap Event.asked?
  lines : transcript.newestLines = (newest.takeWhile (· ≠ .clear)).filterMap Event.emitted?

/-- Both hosts have seen the same events and have the same lines before them, which the
transcript has without their ends. -/
def Abreast (terminal : Terminal) (transcript : Transcript) : Prop :=
  ∃ (newest : List Event) (lines : List String), Seen newest terminal transcript ∧
    terminal.input = lines.map .text ∧ transcript.answers = lines.map Terminal.trimEnd

theorem Terminal.starve_newestOutput (terminal : Terminal) :
    terminal.starve.newestOutput = terminal.newestOutput := by
  unfold starve
  split <;> rfl

theorem Terminal.starve_input (terminal : Terminal) : terminal.starve.input = terminal.input := by
  unfold starve
  split <;> rfl

namespace Seen

variable {newest : List Event} {terminal : Terminal} {transcript : Transcript}

theorem emit (seen : Seen newest terminal transcript) (line : String) :
    Seen (.emit line :: newest) (Host.emit line terminal) (Host.emit line transcript) where
  output := congrArg ((line ++ "\n") :: ·) seen.output
  prompts := seen.prompts
  lines := congrArg (line :: ·) seen.lines

theorem clear (seen : Seen newest terminal transcript) :
    Seen (.clear :: newest) (Host.clear terminal) (Host.clear transcript) where
  output := congrArg (Terminal.clearSequence :: ·) seen.output
  prompts := seen.prompts
  lines := rfl

/-- A question that is put once. -/
theorem ask (seen : Seen newest terminal transcript) (message : String) :
    Seen (.ask message :: newest) (terminal.write (message ++ " "))
      { transcript with newestPrompts := message :: transcript.newestPrompts } where
  output := congrArg ((message ++ " ") :: ·) seen.output
  prompts := congrArg (message :: ·) seen.prompts
  lines := seen.lines

/-- Asking until there is an answer. -/
theorem askFrom (seen : Seen newest terminal transcript) (message : String) (lines : List String) :
    let onTerminal := terminal.askFrom message (lines.map .text)
    let inMemory := Host.ask message { transcript with answers := lines.map Terminal.trimEnd }
    inMemory.1 = onTerminal.1 ∧ Abreast onTerminal.2 inMemory.2 := by
  -- by induction on the lines: an empty one is an event for both, and they ask again
  induction lines generalizing newest terminal transcript with
  | nil =>
    have asked := seen.ask message
    refine ⟨rfl, .ask message :: newest, [], ?_, ?_, rfl⟩
    · exact { asked with output := (Terminal.starve_newestOutput _).trans asked.output }
    · exact Terminal.starve_input _
  | cons line lines ih =>
    have asked := seen.ask message
    by_cases empty : (Terminal.trimEnd line).isEmpty = true
    · have again := ih asked
      simpa only [List.map_cons, Terminal.askFrom, Host.ask, Transcript.askFrom, empty, if_true]
        using again
    · simp only [List.map_cons, Terminal.askFrom, Host.ask, Transcript.askFrom, empty]
      refine ⟨rfl, .ask message :: newest, lines, ?_, rfl, rfl⟩
      exact ⟨asked.output, asked.prompts, asked.lines⟩

end Seen

/-- **A terminal and a transcript stay abreast**, whatever a program does to them. -/
theorem abreast_alike : Host.Alike Abreast where
  emit line abreast := by
    obtain ⟨newest, lines, seen, input, answers⟩ := abreast
    exact ⟨_, lines, seen.emit line, input, answers⟩
  clear abreast := by
    obtain ⟨newest, lines, seen, input, answers⟩ := abreast
    exact ⟨_, lines, seen.clear, input, answers⟩
  ask message abreast := by
    obtain ⟨newest, lines, seen, input, answers⟩ := abreast
    have asked := seen.askFrom message lines
    rw [← input, ← answers] at asked
    exact asked

/-- What hosts that are abreast show, with the events in order. -/
theorem Abreast.events {terminal : Terminal} {transcript : Transcript}
    (abreast : Abreast terminal transcript) :
    ∃ events, terminal.output = Event.renderings events ∧
      transcript.prompts = Event.asked events ∧ transcript.lines = Event.standing events := by
  obtain ⟨newest, _, seen, _⟩ := abreast
  refine ⟨newest.reverse, ?_, ?_, ?_⟩
  · rw [Terminal.output, seen.output, Event.renderings, List.map_reverse]
  · rw [Transcript.prompts, seen.prompts, Event.asked, List.filterMap_reverse]
  · rw [Transcript.lines, seen.lines, Event.standing, List.rtakeWhile, List.reverse_reverse,
      List.filterMap_reverse]

/-! ## The command that runs a file -/

/-- What a command leaves behind when its program has written something and come to a
result. -/
def Outcome.Reports (outcome : Outcome) (written : String) : Except Failure Unit → Prop
  | .ok _ => outcome.status = 0 ∧ outcome.stdout = written ∧ outcome.stderr = ""
  | .error failure =>
    if failure.fault.terminates then
      outcome.status = 0 ∧ outcome.stdout = written ++ "dead\n" ∧ outcome.stderr = ""
    else
      outcome.status = 1 ∧ outcome.stdout = written ∧ outcome.stderr = failure.display ++ "\n"

namespace Command

/-- Without a trace, everything shown was written by the program. -/
theorem shown_output {machine : Machine Terminal} (silent : machine.newestTrace = []) :
    shown machine = machine.host.output := by
  simp [shown, Machine.trace, silent, weave, Terminal.output]

theorem runProgram_reports (limit : Nat) (source : String) (input : Input) :
    let ran := (Machine.runSource (settings false limit) source).run { host := { input } }
    (runProgram false limit source input).Reports ran.2.host.output ran.1 := by
  have silent := (Machine.lasting_trace (settings false limit) rfl).runSource source
    { host := { input } }
  rcases ran : (Machine.runSource (settings false limit) source).run { host := { input } } with
    ⟨result, machine⟩
  rw [ran] at silent
  have written : shown machine = machine.host.output := shown_output silent
  simp only [runProgram, ran, written]
  cases result with
  | ok _ => exact ⟨rfl, rfl, rfl⟩
  | error failure =>
    by_cases terminates : failure.fault.terminates = true
    · have mark : failure.display = "dead" := if_pos terminates
      simp [Outcome.Reports, terminates, mark, String.append_assoc]
    · simp [Outcome.Reports, terminates]

/-- **A program runs on a terminal as it does in memory.** With the lines of the input as
answers, each without the carriage returns and line feeds at its end, the run in memory has
the same result. There are events
whose rendering is all that the terminal shows, and the transcript has kept their messages
and the lines that are standing after them. The command adds `dead` to the output when the
program has ended the session, and reports any other failure. -/
theorem run_abreast {readFile : String → Except Unreadable String} {path source : String}
    (found : readFile path = .ok source) (limit : Nat) (text : String) :
    let input := Input.ofBytes text.toUTF8.data.toList
    let onTerminal := (Machine.runSource { natives := Native.standard, limit } source).run
      { host := ({ input } : Terminal) }
    let inMemory := (Machine.runSource { natives := Native.standard, limit } source).run
      { host := Transcript.ofAnswers ((Input.lines text).map fun line =>
          String.ofList (line.toList.rdropWhile fun c => c == '\r' || c == '\n')) }
    inMemory.1 = onTerminal.1 ∧
      ∃ events, onTerminal.2.host.output = Event.renderings events ∧
        inMemory.2.host.prompts = Event.asked events ∧
        inMemory.2.host.lines = Event.standing events ∧
        ((Command.run path false limit).execute readFile input).Reports
          (Event.renderings events) inMemory.1 := by
  intro input onTerminal inMemory
  -- the answers are the trimmed lines, as `rdropWhile` is defined
  have start : Abreast { input }
      (Transcript.ofAnswers ((Input.lines text).map Terminal.trimEnd)) :=
    ⟨[], Input.lines text, ⟨rfl, rfl, rfl⟩, Input.ofBytes_text text, rfl⟩
  obtain ⟨same, abreast⟩ : inMemory.1 = onTerminal.1 ∧
      Abreast onTerminal.2.host inMemory.2.host :=
    Machine.runSource_alike abreast_alike limit false false source start rfl
  obtain ⟨events, output, prompts, lines⟩ := abreast.events
  refine ⟨same, events, output, prompts, lines, ?_⟩
  rw [← output, same]
  have executed : (Command.run path false limit).execute readFile input =
      runProgram false limit source input := by
    simp only [execute, execute.onFile, found]
  rw [executed]
  exact runProgram_reports limit source input

/-- Questions that are put again after empty lines, a clearing between them, a last line
without a line feed, and a question for which no line is left. -/
theorem run_abreast_exhausted :
    let source := "[[\"a?\"], \"read-line\", \"#put\", \"#clear\", [\"b?\"], \"read-line\", \"#put\",
      [\"c?\"], \"read-line\"]"
    let text := "\r\n\nx\r\n\ny"
    let readFile : String → Except Unreadable String := fun _ => .ok source
    let outcome := (Command.run "p.json" false 1).execute readFile
      (Input.ofBytes text.toUTF8.data.toList)
    let inMemory := (Machine.runSource { natives := Native.standard, limit := 1 } source).run
      { host := Transcript.ofAnswers ["", "", "x", "", "y"] }
    readFile "p.json" = .ok source ∧ inMemory.1.toOption = none ∧
      ∃ events, Event.asked events = ["a?", "a?", "a?", "b?", "b?", "c?"] ∧
        Event.standing events = ["y"] ∧ outcome.Reports (Event.renderings events) inMemory.1 := by
  intro source text readFile outcome inMemory
  have found : readFile "p.json" = .ok source := rfl
  have answers : ((Input.lines text).map fun line =>
      String.ofList (line.toList.rdropWhile fun c => c == '\r' || c == '\n')) =
        ["", "", "x", "", "y"] := by
    decide +kernel
  have failed : inMemory.1.toOption = none := by decide +kernel
  have prompts : inMemory.2.host.prompts = ["a?", "a?", "a?", "b?", "b?", "c?"] := by
    decide +kernel
  have lines : inMemory.2.host.lines = ["y"] := by decide +kernel
  have run := run_abreast found 1 text
  rw [answers] at run
  obtain ⟨_, events, _, asked, standing, reports⟩ := run
  exact ⟨found, failed, events, asked.symm.trans prompts, standing.symm.trans lines, reports⟩

end Command

end StackScript
