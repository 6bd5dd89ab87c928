import WhenLoop.Parse.Report
import WhenLoop.Token.Scan

/-!
# The state of a parse

A parse reads the items of a scan from left to right.  The head of `upcoming` is the
current token.  When no item is left the current token is the end token, and stepping
over it changes nothing but `previous`.

A fault is never current.  It is reported and dropped when the parse comes to it.  All
stepping is one function, `State.skip`, which reads on to the first token with a given
property and reports the faults on its way.

A report puts the parse into panic: nothing more is reported until `recover` finds a
place to go on from.  Passing a limit aborts the parse: the rest of the source is read
over and the panic stays.
-/

namespace WhenLoop

/-- The state of a parse. -/
structure State where
  /-- The token before the current one. -/
  previous : Token
  /-- The items from the current token on. -/
  upcoming : List Item
  /-- The end token. -/
  finish : Token
  /-- How many nested constructs are open. -/
  depth : Nat
  /-- How many operators the expression or condition has so far. -/
  operators : Nat
  /-- What was reported, latest first. -/
  reports : List Report
  /-- How often something was reported. -/
  errors : Nat
  /-- Whether reports are held back. -/
  panicking : Bool
  /-- Whether a limit was passed. -/
  aborted : Bool
deriving Repr

namespace State

/-- The current token. -/
def current (s : State) : Token :=
  match s.upcoming with
  | .token token :: _ => token
  | _ => s.finish

/-- Whether the current token is the end token. -/
def atEnd (s : State) : Bool :=
  s.current.kind = .endOfInput

/-! ## Reporting -/

/-- Report something and panic.  In panic nothing is reported. -/
def report (s : State) (r : Report) : State :=
  if s.panicking then s
  else { s with reports := r :: s.reports, errors := s.errors + 1, panicking := true }

/-- Report a problem at the current token. -/
def reportCurrent (s : State) (problem : Problem) : State :=
  s.report (.atToken s.current problem)

/-- Report a problem at the previous token. -/
def reportPrevious (s : State) (problem : Problem) : State :=
  s.report (.atToken s.previous problem)

/-! ## Stepping -/

/-- Read on in a list of items to the first token at which `stop` holds of the token
before it and itself.  The faults on the way are reported. -/
def skip (stop : Token → Token → Bool) (s : State) : List Item → State
  | [] => { s with upcoming := [] }
  | .fault fault :: items => skip stop (s.report (.lexical fault)) items
  | .token token :: items =>
      if stop s.previous token then { s with upcoming := .token token :: items }
      else skip stop { s with previous := token } items
termination_by structural items => items

/-- The state before the first token of a scan. -/
def ofScan (scan : Scan) : State :=
  skip (fun _ _ => true)
    { previous := .placeholder, upcoming := [], finish := scan.finish, depth := 0,
      operators := 0, reports := [], errors := 0, panicking := false, aborted := false }
    scan.items

/-- Step over the current token. -/
def advance (s : State) : State :=
  skip (fun _ _ => true) { s with previous := s.current } s.upcoming.tail

/-- Step over the current token if it is of the given kind, and report the problem at it
if it is not. -/
def expect (s : State) (kind : TokenKind) (problem : Problem) : State :=
  if s.current.kind = kind then s.advance else s.reportCurrent problem

/-! ## What reporting and stepping keep -/

@[simp]
theorem report_upcoming (s : State) (r : Report) : (s.report r).upcoming = s.upcoming := by
  rw [report]
  split <;> rfl

@[simp]
theorem report_previous (s : State) (r : Report) : (s.report r).previous = s.previous := by
  rw [report]
  split <;> rfl

@[simp]
theorem report_finish (s : State) (r : Report) : (s.report r).finish = s.finish := by
  rw [report]
  split <;> rfl

@[simp]
theorem report_depth (s : State) (r : Report) : (s.report r).depth = s.depth := by
  rw [report]
  split <;> rfl

@[simp]
theorem report_operators (s : State) (r : Report) : (s.report r).operators = s.operators := by
  rw [report]
  split <;> rfl

@[simp]
theorem report_aborted (s : State) (r : Report) : (s.report r).aborted = s.aborted := by
  rw [report]
  split <;> rfl

/-- After a report the parse is in panic. -/
@[simp]
theorem report_panicking (s : State) (r : Report) : (s.report r).panicking = true := by
  rw [report]
  split
  · assumption
  · rfl

@[simp]
theorem skip_finish (stop : Token → Token → Bool) (s : State) (items : List Item) :
    (skip stop s items).finish = s.finish := by
  fun_induction skip stop s items <;> simp_all

@[simp]
theorem skip_depth (stop : Token → Token → Bool) (s : State) (items : List Item) :
    (skip stop s items).depth = s.depth := by
  fun_induction skip stop s items <;> simp_all

@[simp]
theorem skip_operators (stop : Token → Token → Bool) (s : State) (items : List Item) :
    (skip stop s items).operators = s.operators := by
  fun_induction skip stop s items <;> simp_all

@[simp]
theorem skip_aborted (stop : Token → Token → Bool) (s : State) (items : List Item) :
    (skip stop s items).aborted = s.aborted := by
  fun_induction skip stop s items <;> simp_all

/-- What is upcoming after stepping is an end piece of what was to be read. -/
theorem skip_upcoming_suffix (stop : Token → Token → Bool) (s : State) (items : List Item) :
    (skip stop s items).upcoming <:+ items := by
  fun_induction skip stop s items with
  | case1 => exact List.suffix_rfl
  | case2 s fault items ih => exact ih.trans (List.suffix_cons ..)
  | case3 s token items stops => exact List.suffix_rfl
  | case4 s token items goesOn ih => exact ih.trans (List.suffix_cons ..)

/-- Reading on to a token that does not come reads everything. -/
theorem skip_never (s : State) (items : List Item) :
    (skip (fun _ _ => false) s items).upcoming = [] := by
  fun_induction skip (fun _ _ => false) s items <;> simp_all

/-! ## Recovery -/

/-- Whether a statement may start between the two tokens.  A closing brace is a place to
go on from only inside a block.  Outside of any it belongs to the broken statement. -/
def resumes (depth : Nat) (previous current : Token) : Bool :=
  previous.kind = .semicolon ||
    match current.kind with
    | .when | .loop | .out | .openBrace => true
    | .closeBrace => 0 < depth
    | _ => false

/-- End a panic where a statement may start, unless the parse was aborted. -/
def recover (s : State) : State :=
  if s.aborted then s
  else skip (resumes s.depth) { s with panicking := false } s.upcoming

/-- Give up: report the limit that was passed and read over the rest of the source. -/
def abort (s : State) (problem : Problem) : State :=
  skip (fun _ _ => false) { s.reportCurrent problem with aborted := true } s.upcoming

end State

end WhenLoop
