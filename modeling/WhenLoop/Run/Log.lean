import WhenLoop.Run.Failure

/-!
# The log

A run can be watched through a log.  Every event has a level, and a threshold says which
levels are kept.  Without a threshold none are.

Two parts of the program log: the machine that runs statements, and the command around
it.  The line of an event names the part.
-/

namespace WhenLoop

/-- How important an event is, from least to most. -/
inductive Level where
  | trace | debug | info | warn | error
deriving DecidableEq, Repr, Inhabited

namespace Level

/-- The levels in order, counted from the least. -/
def rank : Level → Nat
  | trace => 0
  | debug => 1
  | info => 2
  | warn => 3
  | error => 4

/-- The name of a level. -/
def name : Level → String
  | trace => "TRACE"
  | debug => "DEBUG"
  | info => "INFO"
  | warn => "WARN"
  | error => "ERROR"

/-- The name of a level, filled up to five characters from the left. -/
def column : Level → String
  | info => " INFO"
  | warn => " WARN"
  | level => level.name

/-- Whether a threshold keeps a level. -/
def passes (level : Level) : (threshold : Option Level) → Bool
  | none => false
  | some least => least.rank ≤ level.rank

end Level

/-- Something worth logging. -/
inductive LogEvent where
  /-- A program starts. -/
  | executing
  /-- A statement is entered. -/
  | entering (statement : NodeKind)
  /-- A statement is abandoned. -/
  | abandoned (statement : NodeKind)
  /-- A program is at its end, after so many failures, with so many names bound. -/
  | finished (errors bound : Nat)
  /-- A binding that a program leaves. -/
  | binding (name : String) (value : Int32)
  /-- Statements of the program failed. -/
  | failed (count : Nat)
deriving DecidableEq, Repr

/-- The value of a field of an event. -/
inductive FieldValue where
  /-- A word, written as it is. -/
  | word (text : String)
  /-- A text, written in quotes. -/
  | quoted (text : String)
  /-- A number. -/
  | number (value : Int)
deriving DecidableEq, Repr

/-- The value as a line of the log has it. -/
def FieldValue.render : FieldValue → String
  | word text => text
  | quoted text => "\"" ++ text ++ "\""
  | number value => value.repr

namespace LogEvent

/-- The level of an event. -/
def level : LogEvent → Level
  | entering _ => .trace
  | executing | abandoned _ | finished _ _ | binding _ _ => .debug
  | failed _ => .warn

/-- What an event says. -/
def message : LogEvent → String
  | executing => "executing program"
  | entering _ => "execute"
  | abandoned _ => "statement abandoned"
  | finished _ _ => "program finished"
  | binding _ _ => "final binding"
  | failed _ => "statements failed during execution"

/-- The named values of an event. -/
def fields : LogEvent → List (String × FieldValue)
  | executing => []
  | entering statement => [("statement", .word statement.describe)]
  | abandoned statement => [("statement", .word statement.describe)]
  | finished errors bound => [("errors", .number errors), ("variables", .number bound)]
  | binding name value => [("name", .quoted name), ("value", .number value.toInt)]
  | failed count => [("count", .number count)]

/-- The part of the program that logs the event. -/
def target : LogEvent → String
  | executing | entering _ | abandoned _ | finished _ _ => "when_lang::interpreter::executor"
  | binding _ _ | failed _ => "when_lang"

/-- The line of an event. -/
def line (event : LogEvent) : String :=
  " " ++ event.level.column ++ " " ++ event.target ++ ": " ++ event.message
    ++ String.join (event.fields.map fun field => " " ++ field.1 ++ "=" ++ field.2.render)

end LogEvent

end WhenLoop
