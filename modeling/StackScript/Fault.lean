/-
# StackScript.Fault — what can go wrong, and how it is told

A `Fault` is the cause of a failure. Its `kind` and its `message` are functions
of the cause, so the wording of every message stands here and nowhere else. A
`Failure` is a fault with its trail: the instructions it passed on its way out,
outermost first. Ending the session travels the same way, but collects no trail.
-/
import StackScript.Json.Basic

namespace StackScript

set_option autoImplicit false

/-- The type of a value, as messages name it. -/
inductive ValueType where
  | null
  | boolean
  | number
  | text
  | array
  | dict
  | function
deriving DecidableEq

def ValueType.name : ValueType → String
  | .null => "Null"
  | .boolean => "Boolean"
  | .number => "Number"
  | .text => "Text"
  | .array => "Array"
  | .dict => "Dict"
  | .function => "Function"

/-- The class of a fault. Codes and titles are shown to users. -/
inductive FaultKind where
  | stackUnderflow
  | undefinedVariable
  | undefinedFunction
  | notAFunction
  | shapeMismatch
  | invalidIndex
  | unknownType
  | malformedInstruction
  | invalidApi
  | unsafeContext
  | typeMismatch
  | callDepthExceeded
  | decode
  | inputExhausted
  /-- Not a fault: the program asked for the end of the session. -/
  | terminated
deriving DecidableEq

namespace FaultKind

def code : FaultKind → String
  | .stackUnderflow => "E0101"
  | .undefinedVariable => "E0102"
  | .undefinedFunction => "E0103"
  | .notAFunction => "E0104"
  | .shapeMismatch => "E0105"
  | .invalidIndex => "E0106"
  | .unknownType => "E0107"
  | .malformedInstruction => "E0108"
  | .invalidApi => "E0109"
  | .unsafeContext => "E0110"
  | .typeMismatch => "E0111"
  | .callDepthExceeded => "E0112"
  | .decode => "E0113"
  | .inputExhausted => "E0114"
  | .terminated => "E0000"

def title : FaultKind → String
  | .stackUnderflow => "STACK UNDERFLOW"
  | .undefinedVariable => "UNDEFINED VARIABLE"
  | .undefinedFunction => "UNDEFINED FUNCTION"
  | .notAFunction => "NOT A FUNCTION"
  | .shapeMismatch => "SHAPE MISMATCH"
  | .invalidIndex => "INVALID INDEX"
  | .unknownType => "UNKNOWN TYPE"
  | .malformedInstruction => "MALFORMED INSTRUCTION"
  | .invalidApi => "INVALID API"
  | .unsafeContext => "UNSAFE CONTEXT"
  | .typeMismatch => "TYPE MISMATCH"
  | .callDepthExceeded => "CALL DEPTH EXCEEDED"
  | .decode => "DECODE ERROR"
  | .inputExhausted => "INPUT EXHAUSTED"
  | .terminated => "TERMINATED"

end FaultKind

/-- The cause of a failure. -/
inductive Fault where
  | stackUnderflow
  /-- A push names a variable that is not bound. -/
  | unboundPush (name : String)
  /-- A push leads to a slot that does not exist; `path` is its text. -/
  | absentSlot (path : String)
  /-- A pop leads into a variable that is not bound. -/
  | unboundPop (name : String)
  /-- A method call names a receiver that is not bound. -/
  | unboundReceiver (name : String)
  /-- A path takes an index from a variable that is not bound. -/
  | unboundIndex (name : String)
  | undefinedFunction (name : String)
  /-- A method call finds something else, or nothing, in its slot. -/
  | notAFunction (path : String) (found : Option ValueType)
  | notIndexable (type : ValueType)
  | keyOnArray (key : String)
  | dictInArray
  /-- A value that is no index; `shown` is its text. -/
  | invalidIndex (shown : String)
  | positionOutOfRange (position : String)
  /-- A literal of no known shape. -/
  | unknownType (literal : String)
  | malformedInstruction
  /-- A method call without a segment. -/
  | bareMethod
  /-- A source that is not an array of instructions. -/
  | notASequence (literal : String)
  /-- A string inside a literal that is not a push. -/
  | notAPush (text : String)
  /-- The context was not valid when a program was to start. -/
  | invalidApi
  /-- The context was not valid after a native function ran. -/
  | unsafeContext
  | unequalTypes (left : ValueType) (operator : String) (right : ValueType)
  | notAddable (type : ValueType)
  | notSubtractable (operator : String) (type : ValueType)
  | promptNotText (type : ValueType)
  | callDepthExceeded (limit : Nat)
  | notJson (problem : Json.Problem)
  | inputExhausted
  | terminated
  /-- A fault raised by the host, in its own words. -/
  | reported (kind : FaultKind) (message : String)
deriving DecidableEq

namespace Fault

def kind : Fault → FaultKind
  | .stackUnderflow => .stackUnderflow
  | .unboundPush _ => .undefinedVariable
  | .absentSlot _ => .undefinedVariable
  | .unboundPop _ => .undefinedVariable
  | .unboundReceiver _ => .undefinedVariable
  | .unboundIndex _ => .undefinedVariable
  | .undefinedFunction _ => .undefinedFunction
  | .notAFunction .. => .notAFunction
  | .notIndexable _ => .shapeMismatch
  | .keyOnArray _ => .shapeMismatch
  | .dictInArray => .shapeMismatch
  | .invalidIndex _ => .invalidIndex
  | .positionOutOfRange _ => .invalidIndex
  | .unknownType _ => .unknownType
  | .malformedInstruction => .malformedInstruction
  | .bareMethod => .malformedInstruction
  | .notASequence _ => .malformedInstruction
  | .notAPush _ => .malformedInstruction
  | .invalidApi => .invalidApi
  | .unsafeContext => .unsafeContext
  | .unequalTypes .. => .typeMismatch
  | .notAddable _ => .typeMismatch
  | .notSubtractable .. => .typeMismatch
  | .promptNotText _ => .typeMismatch
  | .callDepthExceeded _ => .callDepthExceeded
  | .notJson _ => .decode
  | .inputExhausted => .inputExhausted
  | .terminated => .terminated
  | .reported kind _ => kind

/-- The word shown when a session has ended. -/
def terminationMark : String := "dead"

/-- A word between the quotes that messages use. -/
def quoted (text : String) : String :=
  "`" ++ text ++ "'"

def message : Fault → String
  | .stackUnderflow => "stack underflow (trying to pop an empty stack)"
  | .unboundPush name => "Invalid push expression: undefined variable " ++ quoted name
  | .absentSlot path => "Invalid push expression: undefined variable " ++ quoted ("$" ++ path)
  | .unboundPop name =>
    "Invalid pop expression: cannot set index or key on undefined variable " ++ quoted name
  | .unboundReceiver name => "Invalid class expression: undefined variable " ++ quoted name
  | .unboundIndex name => "Invalid index: undefined variable " ++ quoted name
  | .undefinedFunction name => "Undefined function: " ++ quoted name
  | .notAFunction path found =>
    "Invalid function: " ++ quoted (":$" ++ path) ++ " holds " ++
      (found.map ValueType.name).getD "nothing"
  | .notIndexable type => "cannot index into " ++ type.name
  | .keyOnArray key => "expected array position, got dict key " ++ quoted key
  | .dictInArray => "expected array element to be an array, found dict"
  | .invalidIndex shown => "invalid index: " ++ shown
  | .positionOutOfRange position =>
    "invalid index: position " ++ quoted position ++ " is out of range"
  | .unknownType literal => "Unknown type: " ++ quoted literal
  | .malformedInstruction => "Malformed instruction"
  | .bareMethod =>
    "Invalid class expression: cannot use class expressions in non-class context"
  | .notASequence literal => "expected an instruction sequence, got " ++ quoted literal
  | .notAPush text => "Expected push expression-like syntax: " ++ quoted text
  | .invalidApi => "Invalid API"
  | .unsafeContext => "Unsafe: unknown api alteration"
  | .unequalTypes left operator right =>
    "Values must be of equal type (" ++ left.name ++ " " ++ operator ++ " " ++ right.name ++ ")"
  | .notAddable type => quoted "+" ++ " expects Number or Text, got " ++ type.name
  | .notSubtractable operator type => quoted operator ++ " expects Number, got " ++ type.name
  | .promptNotText type => "read-line expected Text prompt, got " ++ type.name
  | .callDepthExceeded limit => "call depth exceeded (limit " ++ toString limit ++ ")"
  | .notJson problem => "Provide valid JSON! (" ++ problem.text ++ ")"
  | .inputExhausted => "end of input reached while reading a line"
  | .terminated => terminationMark
  | .reported _ message => message

/-- Whether the session is to end. -/
def terminates (fault : Fault) : Bool :=
  decide (fault.kind = .terminated)

end Fault

/-- A fault and the instructions it passed on its way out, outermost first. -/
structure Failure where
  fault : Fault
  trail : List String := []
deriving DecidableEq

namespace Failure

/-- Records an instruction that the failure passed; the end of a session records none. -/
def within (failure : Failure) (instruction : String) : Failure :=
  if failure.fault.terminates then failure
  else { failure with trail := instruction :: failure.trail }

def display (failure : Failure) : String :=
  if failure.fault.terminates then Fault.terminationMark
  else
    String.join (failure.trail.map fun instruction => "On " ++ Fault.quoted instruction ++ ": ") ++
      failure.fault.message

end Failure

end StackScript
