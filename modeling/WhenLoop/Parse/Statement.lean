import WhenLoop.Parse.Expression

/-!
# Parsing statements and programs

A statement opens a level of nesting, like a group in an expression does, so `statement`
is structural in the same number of levels that `deeper` is.

A program and a block are lists of statements.  After a statement that was reported on,
`recovering` looks for a place where the next one may start.  Every statement takes at
least one token, or it gives up and takes them all, so a list has at most as many
statements as the source has items.  This is the bound `most` of every list.

The tree of a program is there even when the program is wrong.  It then holds zeros and
empty lists for what could not be read, and it is not to be run.
-/

namespace WhenLoop

/-- Read with `p`, and after a report go on where a statement may start. -/
def recovering (p : Parser) : Parser := fun s =>
  let (node, s) := p s
  (node, if s.panicking then s.recover else s)

/-- At most `most` statements, up to the end of the source or a token at which `stop`
holds. -/
def statementList (stop : TokenKind → Bool) (p : Parser) :
    (most : Nat) → State → List Node × State
  | 0, s => ([], s)
  | most + 1, s =>
      if s.atEnd || stop s.current.kind then ([], s)
      else
        let (node, s) := recovering p s
        let (nodes, s) := statementList stop p most s
        (node :: nodes, s)
termination_by structural most => most

/-! ## The kinds of statements -/

/-- An assignment to the name that is current. -/
def assignment (levels : Nat) : Parser := fun s =>
  let target := s.current.text
  let s := s.advance.expect .assign .expectedAssign
  let (value, s) := expression levels s
  (.assign target value, s.expect .semicolon .expectedSemicolon)

/-- An output, at its first word. -/
def output (levels : Nat) : Parser := fun s =>
  let (value, s) := expression levels s.advance
  (.out value, s.expect .semicolon .expectedSemicolon)

/-- The first word of a statement and the condition in parentheses behind it. -/
def guardOf (statement : Guarded) (levels : Nat) : Parser := fun s =>
  let s := s.advance.expect .openParen (.expectedOpenParen statement)
  let (node, s) := condition levels s
  (node, s.expect .closeParen (.expectedCloseParen statement))

/-- A statement with one branch or two.  `inner` reads a branch. -/
def conditional (levels : Nat) (inner : Parser) : Parser := fun s =>
  let (test, s) := guardOf .when levels s
  let (thenBranch, s) := inner s
  if s.current.kind = .otherwise then
    let (elseBranch, s) := inner s.advance
    (.when test thenBranch (some elseBranch), s)
  else (.when test thenBranch none, s)

/-- A loop.  `inner` reads the body. -/
def repetition (levels : Nat) (inner : Parser) : Parser := fun s =>
  let (test, s) := guardOf .loop levels s
  let (body, s) := inner s
  (.loop test body, s)

/-- A block of at most `most` statements.  `inner` reads a statement of it. -/
def block (most : Nat) (inner : Parser) : Parser := fun s =>
  let (nodes, s) := statementList (· = .closeBrace) inner most s.advance
  (.seq nodes, s.expect .closeBrace .expectedCloseBrace)

/-- A statement, by the kind of its first token.  `inner` reads the statements in it. -/
def statementByKind (most levels : Nat) (inner : Parser) : Parser := fun s =>
  match s.current.kind with
  | .when => conditional levels inner s
  | .loop => repetition levels inner s
  | .out => output levels s
  | .openBrace => block most inner s
  | .name => assignment levels s
  | _ => (.seq [], s.advance.reportPrevious .expectedStatement)

/-- A statement, when `levels` levels of nesting may be opened. -/
def statement (most : Nat) : (levels : Nat) → Parser
  | 0 => Parser.tooDeep (.seq [])
  | levels + 1 => Parser.nested (statementByKind most levels (statement most levels))
termination_by structural levels => levels

/-! ## Programs -/

/-- The tree of a source and what is wrong with the source. -/
structure Parsed where
  /-- The tree.  It is to be run only if nothing is wrong. -/
  tree : Node
  /-- What is wrong, in the order in which it was found. -/
  reports : List Report
  /-- How much is wrong. -/
  errors : Nat
deriving Repr

/-- All statements from a state on, up to the end of the source. -/
def program (s : State) : List Node × State :=
  let most := s.upcoming.length
  statementList (fun _ => false) (statement most maxNesting) most s

/-- Read a program. -/
def parse (source : String) : Parsed :=
  let (nodes, s) := program (.ofScan (scan source))
  { tree := .seq nodes, reports := s.reports.reverse, errors := s.errors }

end WhenLoop
