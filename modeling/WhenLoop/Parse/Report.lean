import WhenLoop.Token.Fault

/-!
# Reports

A report says what is wrong with a source and where.  It is either a lexical fault, at
the fault's own position, or a problem at a token.  A report does not know the name of
the source.  The name comes in when the report is rendered.

The two limits of the language stand here because their reports quote them.
-/

namespace WhenLoop

/-- How deep statements, groups and prefix operators may nest. -/
def maxNesting : Nat := 128

/-- How many operators one expression or condition may hold. -/
def maxOperators : Nat := 512

/-- A statement that starts with a condition in parentheses. -/
inductive Guarded where
  | when | loop
deriving DecidableEq, Repr

/-- The word that starts the statement. -/
def Guarded.word : Guarded → String
  | when => "when"
  | loop => "loop"

/-- What is wrong at a token. -/
inductive Problem where
  /-- No statement starts with the token. -/
  | expectedStatement
  /-- A name that starts a statement is not assigned to. -/
  | expectedAssign
  /-- An assignment or an output is not ended. -/
  | expectedSemicolon
  /-- The condition of a statement does not start. -/
  | expectedOpenParen (statement : Guarded)
  /-- The condition of a statement is not ended. -/
  | expectedCloseParen (statement : Guarded)
  /-- A block is not closed. -/
  | expectedCloseBrace
  /-- A group is not closed. -/
  | expectedGroupEnd
  /-- No expression starts with the token. -/
  | expectedExpression
  /-- A condition stands where a whole expression has to. -/
  | conditionForExpression
  /-- A condition stands where an operand has to. -/
  | conditionForOperand
  /-- A literal denotes more than the greatest integer. -/
  | literalTooLarge
  /-- The nesting limit is passed. -/
  | nestingTooDeep
  /-- The operator limit is passed. -/
  | tooManyOperators
deriving DecidableEq, Repr

/-- The problem in words. -/
def Problem.message : Problem → String
  | expectedStatement => "Expected statement"
  | expectedAssign => "Expected '=' after variable name"
  | expectedSemicolon => "Expected ';' after statement"
  | expectedOpenParen statement => "Expected '(' after '" ++ statement.word ++ "'"
  | expectedCloseParen statement => "Expected ')' after '" ++ statement.word ++ "' condition"
  | expectedCloseBrace => "Expected '\x7d' after statements in block"
  | expectedGroupEnd => "Expected ')' after expression"
  | expectedExpression => "Expected expression"
  | conditionForExpression => "Expected expression, found condition"
  | conditionForOperand => "Expected integer operand, found condition"
  | literalTooLarge => "Failed to parse int literal: number too large to fit in target type"
  | nestingTooDeep => "Nesting deeper than " ++ maxNesting.repr ++ " levels"
  | tooManyOperators => "More than " ++ maxOperators.repr ++ " operators in one expression"

/-- Something that is wrong with a source. -/
inductive Report where
  /-- A piece of text that is not a token. -/
  | lexical (fault : LexFault)
  /-- A problem at a token. -/
  | atToken (token : Token) (problem : Problem)
deriving DecidableEq, Repr

namespace Report

/-- Where the report points, if anywhere. -/
def position? : Report → Option Position
  | lexical fault => fault.position?
  | atToken token _ => some token.start

/-- What a report says of the token it points to. -/
def tokenNote : Report → String
  | lexical _ => ""
  | atToken token _ => if token.kind = .endOfInput then " at EOF" else " at " ++ token.render

/-- What is wrong, in words. -/
def message : Report → String
  | lexical fault => fault.message
  | atToken _ problem => problem.message

/-- The line of a report on the source named `path`. -/
def render (path : String) (report : Report) : String :=
  let place := match report.position? with
    | some p => "[" ++ path ++ ":" ++ p.render ++ "] Error"
    | none => "Error"
  place ++ report.tokenNote ++ ": " ++ report.message

end Report

end WhenLoop
