import WhenLoop.Command.Directory
import WhenLoop.Command.Options
import WhenLoop.Interpret
import WhenLoop.Node.Display

/-!
# The command

The command reads a source, prints its tree if that is asked for, and runs it.  A source
that cannot be read or is wrong ends the command with a `CommandError`.  Statements that
fail do not: they are reported, and a warning at the end says how many there were.

What goes to standard error is a list of lines in order.  The lines of the log are kept
apart from the others, because they are rendered in their own way.
-/

namespace WhenLoop

/-- Why a command did not run its source. -/
inductive CommandError where
  /-- The source at the path cannot be read. -/
  | unreadable (path : String) (error : ReadError)
  /-- So many things are wrong with the source at the path. -/
  | malformed (path : String) (count : Nat)
deriving DecidableEq, Repr

/-- The error in words. -/
def CommandError.message : CommandError → String
  | unreadable path error => "Could not open file " ++ path ++ ": " ++ error.reason
  | malformed path count => count.repr ++ " syntax error(s) in " ++ path

/-- A line on standard error. -/
inductive ErrorLine where
  /-- A line of text. -/
  | text (line : String)
  /-- A line of the log. -/
  | log (event : LogEvent)
deriving DecidableEq, Repr

/-- The line as it is printed. -/
def ErrorLine.render : ErrorLine → String
  | text line => line
  | log event => event.line

/-- The line of an entry of a journal. -/
def Notice.errorLine : Notice → ErrorLine
  | .log event => .log event
  | .failed failure => .text failure.report

/-- What a run of the command leaves. -/
structure Ran where
  /-- Why the source was not run, if it was not. -/
  error? : Option CommandError
  /-- What was written to standard output. -/
  output : ByteArray
  /-- What was written to standard error. -/
  errorLines : List ErrorLine

/-- Run a source that was read, or fail with the reason why it was not. -/
def runSource (rounds : Nat) (options : Options) (threshold : Option Level)
    (content : Except ReadError ByteArray) : Option Ran :=
  match content.bind textOf with
  | .error error => some ⟨some (.unreadable options.input error), .empty, []⟩
  | .ok source =>
      match readProgram source with
      | .error reports =>
          some ⟨some (.malformed options.input reports.length), .empty,
            reports.map fun report => .text (report.render options.input)⟩
      | .ok program =>
          (runProgram rounds Sink.unlimited threshold program).map fun m =>
            let m := if 0 < m.errors then m.log (.failed m.errors) else m
            let tree := if options.printTree then [.text program.display] else []
            ⟨none, m.sink.taken, tree ++ m.journal.toList.map Notice.errorLine⟩

/-- How a command ends. -/
structure Exit where
  /-- The exit code: zero for a run, one for a source that was not run, two for arguments
  that make no sense. -/
  code : UInt8
  /-- What was written to standard output. -/
  output : ByteArray
  /-- The lines that were written to standard error. -/
  errorLines : List String

/-- The name and the version of the command. -/
def versionLine : String := "when_lang 0.1.0\n"

/-- How the arguments are to be given. -/
def usageLine : String := "Usage: when_lang [OPTIONS] <INPUT>"

/-- The end of a command that ran a source. -/
def Ran.exit (ran : Ran) : Exit :=
  let lines := ran.errorLines.map ErrorLine.render
  match ran.error? with
  | none => ⟨0, ran.output, lines⟩
  | some error => ⟨1, ran.output, lines ++ [error.message]⟩

/-- Do what is requested.  `asked?` is the threshold that was asked for, and `read` reads
a file. -/
def Request.answer (rounds : Nat) (asked? : Option (Option Level))
    (read : String → Except ReadError ByteArray) : Request → Option Exit
  | .misuse => some ⟨2, .empty, [usageLine]⟩
  | .version => some ⟨0, versionLine.toUTF8, []⟩
  | .run options =>
      (runSource rounds options (options.threshold asked?) (read options.input)).map Ran.exit

end WhenLoop
