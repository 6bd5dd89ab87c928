import WhenLoop.Run.Log

/-!
# Arguments of the command

The command takes one path and two flags.  `--print-ast` prints the tree before the run,
and `-v` or `--verbose` logs from the level `debug` on.  `-V` or `--version` asks for the
version.  Arguments are read from left to right, and the first one that is wrong or asks
for the version decides.

A flag is given at most once, without a value and in full.  Flags of one letter can be
joined.  `-` alone is a path.  Behind `--` every argument is a path.  A path is not empty.
-/

namespace WhenLoop

/-- What a command is to do. -/
structure Options where
  /-- The path of the source. -/
  input : String
  /-- Whether to print the tree. -/
  printTree : Bool
  /-- Whether to log from the level `debug` on. -/
  verbose : Bool
deriving DecidableEq, Repr

/-- What the arguments of a command ask for. -/
inductive Request where
  /-- To run a source. -/
  | run (options : Options)
  /-- To name the version. -/
  | version
  /-- Nothing that makes sense. -/
  | misuse
deriving DecidableEq, Repr

namespace Request

/-- What was read of the arguments so far. -/
structure Reading where
  /-- The path, once it was given. -/
  input? : Option String := none
  /-- Whether the tree is to be printed. -/
  printTree : Bool := false
  /-- Whether to be verbose. -/
  verbose : Bool := false
  /-- Whether `--` was given. -/
  pathsOnly : Bool := false

namespace Reading

/-- Take a path.  There is one, and it is not empty. -/
def takePath (p : Reading) (path : String) : Except Request Reading :=
  if p.input?.isSome || path = "" then .error .misuse else .ok { p with input? := some path }

/-- Take the flag that prints the tree. -/
def takePrintTree (p : Reading) : Except Request Reading :=
  if p.printTree then .error .misuse else .ok { p with printTree := true }

/-- Take the flag for more log. -/
def takeVerbose (p : Reading) : Except Request Reading :=
  if p.verbose then .error .misuse else .ok { p with verbose := true }

/-- Take one letter of joined flags. -/
def takeLetter (p : Reading) (letter : Char) : Except Request Reading :=
  match letter with
  | 'v' => p.takeVerbose
  | 'V' => .error .version
  | _ => .error .misuse

/-- Take an argument by what it starts with. -/
def take (p : Reading) (argument : String) : Except Request Reading :=
  if p.pathsOnly then p.takePath argument
  else
    match argument with
    | "--" => .ok { p with pathsOnly := true }
    | "--print-ast" => p.takePrintTree
    | "--verbose" => p.takeVerbose
    | "--version" => .error .version
    | _ =>
        match argument.toList with
        | '-' :: '-' :: _ => .error .misuse
        | '-' :: first :: letters => (first :: letters).foldlM takeLetter p
        | _ => p.takePath argument

end Reading

/-- What the arguments ask for. -/
def ofArguments (arguments : List String) : Request :=
  match arguments.foldlM Reading.take {} with
  | .error request => request
  | .ok { input? := some input, printTree, verbose, .. } => .run ⟨input, printTree, verbose⟩
  | .ok _ => .misuse

end Request

/-- The threshold that a word names: a level, or `off` for none. -/
def thresholdOf? : String → Option (Option Level)
  | "trace" => some (some .trace)
  | "debug" => some (some .debug)
  | "info" => some (some .info)
  | "warn" => some (some .warn)
  | "error" => some (some .error)
  | "off" => some none
  | _ => none

/-- The threshold of a command: `debug` if it is verbose, or else the one that was asked
for, or else `warn`. -/
def Options.threshold (options : Options) (asked? : Option (Option Level)) : Option Level :=
  if options.verbose then some .debug else asked?.getD (some .warn)

example : Request.ofArguments ["-v", "--", "-x"] = .run ⟨"-x", false, true⟩ := by decide
example : Request.ofArguments ["a", "b", "-V"] = .misuse := by decide
example : Request.ofArguments ["a", "-vV", "b"] = .version := by decide

end WhenLoop
