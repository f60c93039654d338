/-
# StackScript.Host.Basic — the host a program talks to

A program can do three things to the world around it: emit a line, clear what
has been emitted, and ask for a line of text. A host is a state with these three
operations. Asking repeats until the answer is not empty, and gives nothing once
no answer can be had.

A `Transcript` is a host in memory. It keeps the emitted lines and the messages of
all prompts, and answers from a queue. Every time it asks, the message is recorded
once more, so an empty answer leaves two records.
-/

namespace StackScript

set_option autoImplicit false

class Host (σ : Type) where
  emit : String → σ → σ
  /-- Erases everything emitted so far. -/
  clear : σ → σ
  /-- Asks, with a message, until the answer is not empty. -/
  ask : String → σ → Option String × σ

/-! ## A host in memory -/

structure Transcript where
  /-- The lines emitted since the last clearing, newest first. -/
  newestLines : List String := []
  /-- The messages of all prompts, newest first. -/
  newestPrompts : List String := []
  /-- The answers still to be given. -/
  answers : List String := []

namespace Transcript

def ofAnswers (answers : List String) : Transcript :=
  { answers }

/-- The emitted lines in order. -/
def lines (transcript : Transcript) : List String :=
  transcript.newestLines.reverse

/-- The messages of all prompts in order. -/
def prompts (transcript : Transcript) : List String :=
  transcript.newestPrompts.reverse

/-- The emitted lines as one text. -/
def text (transcript : Transcript) : String :=
  String.intercalate "\n" transcript.lines

/-- Asks with the given answers in the queue: the answer, the messages so far and
the answers left. -/
def askFrom (message : String) (prompts : List String) :
    List String → Option String × List String × List String
  | [] => (none, message :: prompts, [])
  | answer :: rest =>
    if answer.isEmpty then askFrom message (message :: prompts) rest
    else (some answer, message :: prompts, rest)

instance : Host Transcript where
  emit line transcript := { transcript with newestLines := line :: transcript.newestLines }
  clear transcript := { transcript with newestLines := [] }
  ask message transcript :=
    let (answer, newestPrompts, answers) :=
      askFrom message transcript.newestPrompts transcript.answers
    (answer, { transcript with newestPrompts, answers })

end Transcript

end StackScript
