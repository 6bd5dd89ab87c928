import WhenLoop.Run.Machine

/-!
# Execution

Every statement runs behind a boundary of its own.  When it fails it is abandoned, and
the failure is reported and counted there (`Machine.settle`).  Whatever follows the
statement runs all the same.  A statement list therefore never fails, a branch and a body
never fail the statement around them, and a loop fails only at its condition.

A program may run forever, so execution has a bound: a loop that is entered tests its
condition at most `rounds` times.  Execution with a bound that is too small gives no
result at all.  A result that some bound gives is given by every greater bound, so a
program terminates exactly if some bound gives a result.

`rounds` bounds each loop for itself and not the run as a whole.  So it is not used up
along the way, and the recursion is structural in the tree.
-/

namespace WhenLoop

variable {σ : Type}

/-- Running a statement: no result if a loop goes past its bound, and else success or a
failure, with the machine that is left. -/
abbrev Execution (σ : Type) := Machine σ → Option (Except Failure Unit × Machine σ)

namespace Machine

/-- Report the failure of a statement of the given kind, if it failed. -/
def settle (kind : NodeKind) : Except Failure Unit × Machine σ → Machine σ
  | (.ok _, m) => m
  | (.error failure, m) => (m.log (.abandoned kind)).fail failure

/-- Run a statement of the given kind behind its boundary. -/
def contain (kind : NodeKind) (act : Execution σ) (m : Machine σ) : Option (Machine σ) :=
  (act (m.log (.entering kind))).map (settle kind)

/-- Run a body as long as a condition holds, testing the condition at most so often. -/
def iterate (test : Evaluation Bool) (body : Machine σ → Option (Machine σ)) : Nat → Execution σ
  | 0 => fun _ => none
  | rounds + 1 => fun m =>
      match m.evaluate test with
      | (.error failure, m) => some (.error failure, m)
      | (.ok false, m) => some (.ok (), m)
      | (.ok true, m) => (body m).bind (iterate test body rounds)
termination_by structural rounds => rounds

end Machine

open Machine (contain iterate)

variable [Outlet σ]

mutual

/-- Run a statement that was entered. -/
def Node.perform (rounds : Nat) : Node → Execution σ
  | .seq statements => fun m => (performAll rounds statements m).map fun m => (.ok (), m)
  | .assign target value => fun m =>
      match m.evaluate value.evaluate with
      | (.error failure, m) => some (.error failure, m)
      | (.ok v, m) => some (.ok (), m.assign target v)
  | .when condition thenBranch elseBranch => fun m =>
      match m.evaluate condition.test with
      | (.error failure, m) => some (.error failure, m)
      | (.ok true, m) =>
          (contain thenBranch.kind (thenBranch.perform rounds) m).map fun m => (.ok (), m)
      | (.ok false, m) => (contained rounds elseBranch m).map fun m => (.ok (), m)
  | .loop condition body =>
      iterate condition.test (contain body.kind (body.perform rounds)) rounds
  | .out value => fun m =>
      match m.evaluate value.evaluate with
      | (.error failure, m) => some (.error failure, m)
      | (.ok v, m) => some (m.print v)
  | node => fun m => some (.error (.notStatement node.kind), m)
termination_by structural node => node

/-- Run a statement that may be missing behind its boundary. -/
def contained (rounds : Nat) : Option Node → Machine σ → Option (Machine σ)
  | none => some
  | some node => contain node.kind (node.perform rounds)
termination_by structural statement => statement

/-- Run statements one after the other, each behind its boundary. -/
def performAll (rounds : Nat) : List Node → Machine σ → Option (Machine σ)
  | [] => some
  | node :: nodes => fun m =>
      (contain node.kind (node.perform rounds) m).bind (performAll rounds nodes)
termination_by structural nodes => nodes

end

/-- Enter and run a statement that may be missing.  Its failure is neither reported nor
counted. -/
def execute (rounds : Nat) : Option Node → Execution σ
  | none => fun m => some (.ok (), m)
  | some node => fun m => node.perform rounds (m.log (.entering node.kind))

namespace Machine

/-- End a program: flush the sink, and report a refusal. -/
def finish (m : Machine σ) : Machine σ :=
  let m := match m.flush with
    | (.ok _, m) => m
    | (.error failure, m) => m.fail failure
  m.log (.finished m.errors m.store.size)

/-- Run a whole program.  It may be missing. -/
def run (rounds : Nat) (root : Option Node) (m : Machine σ) : Option (Machine σ) :=
  (contained rounds root (m.log .executing)).map finish

end Machine

end WhenLoop
