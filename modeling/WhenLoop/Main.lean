import WhenLoop.Command.Run

/-!
# The program

Reads the arguments, the environment and the source, and prints what the command leaves.
-/

namespace WhenLoop

/-- The reason for which the system cannot read a file, by the system's code for it.
The code may come with its sign turned. -/
def ReadError.ofCode (code : UInt32) (details : String) : ReadError :=
  match min code.toNat (-code).toNat with
  | 2 => .missing
  | 20 => .notDirectory
  | 21 => .isDirectory
  | 36 => .nameTooLong
  | code => .other details.capitalize code

/-- The reason for which the system cannot read a file. -/
def ReadError.ofSystem : IO.Error → ReadError
  | .noFileOrDirectory _ code details | .inappropriateType _ code details
  | .permissionDenied _ code details | .resourceExhausted _ code details
  | .invalidArgument _ code details | .otherError code details => .ofCode code details
  | error => .other error.toString 5

/-- What is in the file at a path. -/
def readContent (path : String) : IO (Except ReadError ByteArray) :=
  try
    return .ok (← IO.FS.readBinFile path)
  catch error =>
    return .error (.ofSystem error)

end WhenLoop

open WhenLoop in
/-- Run the command with the given arguments. -/
def main (arguments : List String) : IO UInt32 := do
  let request := Request.ofArguments arguments
  let asked? := (← IO.getEnv "RUST_LOG").bind thresholdOf?
  let content ← match request with
    | .run options => readContent options.input
    | _ => pure (.error .missing)
  match request.answer ampleRounds asked? fun _ => content with
  | none => return 1
  | some ending =>
      (← IO.getStdout).write ending.output
      for line in ending.errorLines do
        IO.eprintln line
      return ending.code.toUInt32
