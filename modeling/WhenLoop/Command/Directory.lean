/-!
# Files of a directory

The files that a command can see, as one working directory.  A path is a sequence of
names with slashes between them, and it is followed name by name.

Every step of a path, also an empty one behind a last slash, starts from a directory.
`.` and an empty name stay where they are and `..` goes up.  Nothing is known outside of
the working directory, so an absolute path, or one that goes up too far, leads to a place
where no name exists.

Names and paths are bounded, in bytes.  A path that is too long is not followed at all.  A
name that is too long is found out when the path comes to it, so a step before it that
leads nowhere is the reason that counts.  A path with a NUL character is no path.
-/

namespace WhenLoop

/-- What a name of a directory stands for. -/
inductive Entry where
  /-- A file and what is in it. -/
  | file (content : ByteArray)
  /-- A directory in the directory. -/
  | folder

/-- Why a file cannot be read. -/
inductive ReadError where
  /-- A name of the path does not exist. -/
  | missing
  /-- The path goes on behind a file. -/
  | notDirectory
  /-- The path leads to a directory. -/
  | isDirectory
  /-- The path or a name of it is too long. -/
  | nameTooLong
  /-- The path holds a NUL character. -/
  | nulInPath
  /-- The file does not hold UTF-8. -/
  | notText
  /-- The system has another reason. -/
  | other (details : String) (code : Nat)
deriving DecidableEq, Repr

/-- The reason in words. -/
def ReadError.reason : ReadError → String
  | missing => "No such file or directory (os error 2)"
  | notDirectory => "Not a directory (os error 20)"
  | isDirectory => "Is a directory (os error 21)"
  | nameTooLong => "File name too long (os error 36)"
  | nulInPath => "file name contained an unexpected NUL byte"
  | notText => "stream did not contain valid UTF-8"
  | other details code => details ++ " (os error " ++ code.repr ++ ")"

/-- How many bytes a name may have. -/
def maxNameBytes : Nat := 255

/-- How many bytes a path may have. -/
def maxPathBytes : Nat := 4095

/-- A working directory: the entries by their paths, which have no dots and no doubled
slashes. -/
structure Directory where
  /-- The entries with their paths. -/
  entries : List (String × Entry)

/-- A place that a path leads to. -/
inductive Place where
  /-- A directory inside the working directory, by the names that lead to it, the last
  one first. -/
  | inside (names : List String)
  /-- A directory outside of the working directory. -/
  | outside
  /-- A file. -/
  | file (content : ByteArray)

namespace Directory

/-- What is at a path, which is given by its names, the last one first.  A folder is also
there if only something in it is. -/
def entry? (d : Directory) (names : List String) : Option Entry :=
  let path := "/".intercalate names.reverse
  match d.entries.lookup path with
  | some entry => some entry
  | none => if d.entries.any fun e => (path ++ "/").isPrefixOf e.1 then some .folder else none

/-- Look up a name in the directory that `names` lead to. -/
def lookup (d : Directory) (name : String) (names : List String) : Except ReadError Place :=
  match d.entry? (name :: names) with
  | some (.file content) => .ok (.file content)
  | some .folder => .ok (.inside (name :: names))
  | none => .error .missing

/-- Follow one name of a path. -/
def step (d : Directory) (name : String) : Place → Except ReadError Place
  | .file _ => .error .notDirectory
  | .outside =>
      if name ∈ ["", ".", ".."] then .ok .outside
      else if maxNameBytes < name.utf8ByteSize then .error .nameTooLong
      else .error .missing
  | .inside names =>
      match name with
      | "" | "." => .ok (.inside names)
      | ".." =>
          match names with
          | [] => .ok .outside
          | _ :: above => .ok (.inside above)
      | _ =>
          if maxNameBytes < name.utf8ByteSize then .error .nameTooLong
          else d.lookup name names

/-- Where a path leads. -/
def find (d : Directory) (path : String) : Except ReadError Place :=
  if path.contains '\x00' then .error .nulInPath
  else if maxPathBytes < path.utf8ByteSize then .error .nameTooLong
  else if path = "" then .error .missing
  else
    let names := path.splitOn "/"
    let start := if names.head? = some "" then .outside else .inside []
    names.foldlM (fun place name => d.step name place) start

/-- What is in the file at a path. -/
def read (d : Directory) (path : String) : Except ReadError ByteArray :=
  match d.find path with
  | .error e => .error e
  | .ok (.file content) => .ok content
  | .ok _ => .error .isDirectory

end Directory

/-- The text of a file. -/
def textOf (content : ByteArray) : Except ReadError String :=
  match String.fromUTF8? content with
  | some text => .ok text
  | none => .error .notText

end WhenLoop
