import WhenLoop.Parse.Statement
import WhenLoop.Proofs.Grammar

/-!
# Reading without bounds

The parsers have bounds so that they are functions by recursion on a number: on the levels of
nesting that are left, on the operators of a chain, on the statements of a list.  Reading itself
has only the two limits of the language.  Here it is written down once more without any bound, as
routines that call one another and themselves.  A loop is a routine that calls itself last.

A `Plan` is what a routine does: it is done, or it calls a routine and goes on with the answer.
`plan` is the plan of each routine.  Nothing in this makes a plan end.  `Plan.Yields` says that it
does, with an answer, and `Plan.Makes` which calls it makes on the way.  `Called` are the calls
that are made while a source is read.
-/

namespace WhenLoop

open Grammar (Rank)
open State (resumes)

/-! ## Plans -/

/-- The binary operators of a nonterminal of the ladder. -/
def Grammar.Rank.rung : Rank → Rung
  | .or => .disjunction
  | .and => .conjunction
  | .comparison => .comparison
  | .term => .sum
  | .factor => .product
  | .not | .unary | .primary => ⟨fun _ => none, false⟩

/-- The next nonterminal down the ladder. -/
def Grammar.Rank.tighter : Rank → Rank
  | .or => .and
  | .and => .not
  | .not => .comparison
  | .comparison => .term
  | .term => .factor
  | .factor => .unary
  | .unary | .primary => .primary

/-- What is sought over several tokens. -/
inductive Goal where
  /-- A place where a statement may start. -/
  | resume
  /-- The end of the source. -/
  | finish
deriving DecidableEq, Repr

/-- Whether the goal is between the two tokens. -/
def Goal.between (goal : Goal) (depth : Nat) : Token → Token → Bool :=
  match goal with
  | resume => resumes depth
  | finish => fun _ _ => false

/-- Whether a list of statements ends at a token, in a block or in a program. -/
def listEnd : (inBlock : Bool) → TokenKind → Bool
  | true => (· = .closeBrace)
  | false => fun _ => false

/-- What a parse is made of.  Every loop of it is a routine of its own. -/
inductive Routine where
  /-- Pass over faults to a token. -/
  | consume
  /-- Step over tokens to a goal. -/
  | seek (goal : Goal)
  /-- Read a program. -/
  | program
  /-- Go on with a list of statements behind those that were found. -/
  | statements (inBlock : Bool) (found : List Node)
  /-- Read a statement, and look for the next one if something was wrong with it. -/
  | declaration
  /-- Read a statement. -/
  | statement
  /-- Read a whole expression. -/
  | expression
  /-- Read a whole condition. -/
  | condition
  /-- Read a phrase of the ladder. -/
  | phrase (rank : Rank)
  /-- Go on with a chain of operators behind its left operand. -/
  | chain (rank : Rank) (left : Node)

/-- How far up a routine is.  The nonterminals of the ladder lie between the routines that
step over tokens and the statements. -/
def Routine.height : Routine → Nat
  | consume => 0
  | seek _ => 1
  | phrase .primary => 2
  | phrase .unary => 3
  | chain _ _ => 4
  | phrase .factor => 5
  | phrase .term => 6
  | phrase .comparison => 7
  | phrase .not => 8
  | phrase .and => 9
  | phrase .or => 10
  | expression => 11
  | condition => 11
  | statement => 12
  | declaration => 13
  | statements _ _ => 14
  | program => 15

/-- What a routine does: it is done with an answer, or it calls a routine in a state and goes on
with its answer. -/
inductive Plan where
  | done (answer : Node × State)
  | call (routine : Routine) (s : State) (next : Node × State → Plan)

namespace Plan

/-- Step over the current token. -/
def advance (s : State) (next : State → Plan) : Plan :=
  call .consume { s with previous := s.current, upcoming := s.upcoming.tail }
    fun (_, s) => next s

/-- Step over the current token if it is of the given kind, and else report the problem. -/
def expect (s : State) (kind : TokenKind) (problem : Problem) (next : State → Plan) : Plan :=
  if s.current.kind = kind then advance s next else next (s.reportCurrent problem)

/-- Report the limit that was passed and step over the rest of the source. -/
def giveUp (s : State) (problem : Problem) (node : Node) : Plan :=
  call (.seek .finish) { s.reportCurrent problem with aborted := true }
    fun (_, s) => done (node, s)

/-- Open a level of nesting, or give up with the given node. -/
def enter (s : State) (node : Node) (next : State → Plan) : Plan :=
  if s.depth < maxNesting then next { s with depth := s.depth + 1 }
  else giveUp s .nestingTooDeep node

/-- Close a level of nesting. -/
def leave (node : Node) (s : State) : Plan :=
  done (node, { s with depth := s.depth - 1 })

/-- Count an operator, or give up with the given node. -/
def count (s : State) (node : Node) (next : State → Plan) : Plan :=
  if s.operators + 1 ≤ maxOperators then next { s with operators := s.operators + 1 }
  else giveUp { s with operators := s.operators + 1 } .tooManyOperators node

/-- Read an operator of the rank and its right operand, and go on with the two joined.  Without
an operator the left operand is the answer. -/
def operator (rank : Rank) (left : Node) (s : State) (next : Node → State → Plan) : Plan :=
  match rank.rung.join? s.current.kind with
  | none => done (left, s)
  | some join =>
      advance s fun s => count s left fun s =>
        call (.phrase rank.tighter) (rank.rung.checkOperand s left) fun (right, s) =>
          next (join left right) (rank.rung.checkOperand s right)

/-- Read operands of the next rank with operators of this rank between them. -/
def operands (rank : Rank) (s : State) (next : Node → State → Plan) : Plan :=
  call (.phrase rank.tighter) s fun (left, s) =>
    call (.chain rank left) s fun (node, s) => next node s

def primary (s : State) : Plan :=
  match s.current.kind with
  | .number =>
      match literal? s.current.text.toList with
      | some value => advance s fun s => done (.num value, s)
      | none => advance s fun s => done (.num 0, s.reportPrevious .literalTooLarge)
  | .name => advance s fun s' => done (.var s.current.text, s')
  | .openParen =>
      advance s fun s => call (.phrase .or) s fun (node, s) =>
        expect s .closeParen .expectedGroupEnd fun s => done (node, s)
  | _ => advance s fun s => done (.num 0, s.reportPrevious .expectedExpression)

/-- A phrase of the ladder. -/
def phrase (s : State) : Rank → Plan
  | .or => enter s (.num 0) fun s => operands .or s leave
  | .and => operands .and s fun node s => done (node, s)
  | .not =>
      if s.current.kind = .not then
        advance s fun s => count s (.num 0) fun s => enter s (.num 0) fun s =>
          call (.phrase .not) s fun (operand, s) => leave (.not operand.asCondition) s
      else call (.phrase .comparison) s done
  | .comparison =>
      call (.phrase .term) s fun (left, s) =>
        operator .comparison left s fun node s => done (node, s)
  | .term => operands .term s fun node s => done (node, s)
  | .factor => operands .factor s fun node s => done (node, s)
  | .unary =>
      if s.current.kind = .minus then
        advance s fun s => count s (.num 0) fun s => enter s (.num 0) fun s =>
          call (.phrase .unary) s fun (operand, s) =>
            done (.neg operand, State.reportCondition { s with depth := s.depth - 1 }
              .conditionForOperand operand)
      else call (.phrase .primary) s done
  | .primary => primary s

/-- The first word of a statement and the condition behind it. -/
def guardOf (kind : Guarded) (s : State) (next : Node → State → Plan) : Plan :=
  advance s fun s => expect s .openParen (.expectedOpenParen kind) fun s =>
    call .condition s fun (test, s) =>
      expect s .closeParen (.expectedCloseParen kind) fun s => next test s

/-- A statement by the kind of its first token, inside its level of nesting. -/
def byKind (s : State) : Plan :=
  match s.current.kind with
  | .when =>
      guardOf .when s fun test s => call .statement s fun (thenBranch, s) =>
        if s.current.kind = .otherwise then
          advance s fun s => call .statement s fun (elseBranch, s) =>
            leave (.when test thenBranch (some elseBranch)) s
        else leave (.when test thenBranch none) s
  | .loop =>
      guardOf .loop s fun test s => call .statement s fun (body, s) => leave (.loop test body) s
  | .out =>
      advance s fun s => call .expression s fun (value, s) =>
        expect s .semicolon .expectedSemicolon fun s => leave (.out value) s
  | .openBrace =>
      advance s fun s => call (.statements true []) s fun (list, s) =>
        expect s .closeBrace .expectedCloseBrace fun s => leave list s
  | .name =>
      advance s fun s' => expect s' .assign .expectedAssign fun s' =>
        call .expression s' fun (value, s') =>
          expect s' .semicolon .expectedSemicolon fun s' => leave (.assign s.current.text value) s'
  | _ => advance s fun s => leave (.seq []) (s.reportPrevious .expectedStatement)

end Plan

open Plan in
/-- What each routine does.  A routine that only steps answers with an empty list. -/
def plan (routine : Routine) (s : State) : Plan :=
  match routine with
  | .consume =>
      match s.upcoming with
      | .fault fault :: items =>
          call .consume { s.report (.lexical fault) with upcoming := items } done
      | _ => done (.seq [], s)
  | .seek goal =>
      if s.atEnd || goal.between s.depth s.previous s.current then done (.seq [], s)
      else advance s fun s => call (.seek goal) s done
  | .program => call .consume s fun (_, s) => call (.statements false []) s done
  | .statements inBlock found =>
      if s.atEnd || listEnd inBlock s.current.kind then done (.seq found, s)
      else call .declaration s fun (node, s) => call (.statements inBlock (found ++ [node])) s done
  | .declaration =>
      call .statement s fun (node, s) =>
        if s.panicking && !s.aborted then
          call (.seek .resume) { s with panicking := false } fun (_, s) => done (node, s)
        else done (node, s)
  | .statement => enter s (.seq []) byKind
  | .expression =>
      call (.phrase .or) { s with operators := 0 } fun (node, s) =>
        done (node, s.reportCondition .conditionForExpression node)
  | .condition =>
      call (.phrase .or) { s with operators := 0 } fun (node, s) => done (node.asCondition, s)
  | .phrase rank => phrase s rank
  | .chain rank left => operator rank left s fun node s => call (.chain rank node) s done

/-! ## What a plan yields -/

/-- The plan comes to its end, with this answer. -/
inductive Plan.Yields : Plan → Node × State → Prop where
  | done (answer : Node × State) : Yields (.done answer) answer
  | call {routine : Routine} {s : State} {next : Node × State → Plan}
      {answer answer' : Node × State} :
      Yields (plan routine s) answer → Yields (next answer) answer' →
      Yields (.call routine s next) answer'

/-- The plan comes to call the routine in the state. -/
inductive Plan.Makes : Plan → Routine → State → Prop where
  | now {routine : Routine} {s : State} {next : Node × State → Plan} :
      Makes (.call routine s next) routine s
  | later {routine other : Routine} {s t : State} {next : Node × State → Plan}
      {answer : Node × State} :
      Yields (plan routine s) answer → Makes (next answer) other t →
      Makes (.call routine s next) other t

/-- The plan comes to its end with this answer, and all calls it makes are within the given
ones. -/
inductive Plan.Settles (within : Routine → State → Prop) : Plan → Node × State → Prop where
  | done (answer : Node × State) : Settles within (.done answer) answer
  | call {routine : Routine} {s : State} {next : Node × State → Plan}
      {answer answer' : Node × State} :
      within routine s → Yields (plan routine s) answer → Settles within (next answer) answer' →
      Settles within (.call routine s next) answer'

namespace Plan

/-- A plan has one answer, by induction on how it was reached. -/
theorem Yields.unique {p : Plan} {a b : Node × State} (h : p.Yields a) (h' : p.Yields b) :
    a = b := by
  induction h generalizing b with
  | done answer =>
      cases h'
      rfl
  | call _ _ ih ihNext =>
      cases h' with
      | call first rest =>
          cases ih first
          exact ihNext rest

variable {within : Routine → State → Prop} {p : Plan} {answer : Node × State}

/-- A plan that settles has an answer, bounds on its calls aside. -/
theorem Settles.yields (h : p.Settles within answer) : p.Yields answer := by
  induction h with
  | done answer => exact .done answer
  | call _ first _ ih => exact .call first ih

/-- Every call that a settled plan makes is within the bounds. -/
theorem Settles.makes (h : p.Settles within answer) {routine : Routine} {s : State}
    (makes : p.Makes routine s) : within routine s := by
  induction h with
  | done => cases makes
  | call here first _ ih =>
      cases makes with
      | now => exact here
      | later first' rest =>
          cases first.unique first'
          exact ih rest

end Plan

/-! ## The calls of a parse -/

/-- The state before a scan, when not even the first token is known. -/
def State.before (scan : Scan) : State where
  previous := .placeholder
  upcoming := scan.items
  finish := scan.finish
  depth := 0
  operators := 0
  reports := []
  errors := 0
  panicking := false
  aborted := false

/-- The calls that are made while a source is read. -/
inductive Called (source : String) : Routine → State → Prop where
  | first : Called source .program (.before (scan source))
  | next {routine other : Routine} {s t : State} :
      Called source routine s → (plan routine s).Makes other t → Called source other t

/-- From one call to another either less is left to read, or as much is and the other routine is
further down. -/
def Routine.Descends (routine : Routine) (s : State) (other : Routine) (t : State) : Prop :=
  t.upcoming.length < s.upcoming.length ∨
    t.upcoming.length = s.upcoming.length ∧ other.height < routine.height

end WhenLoop
