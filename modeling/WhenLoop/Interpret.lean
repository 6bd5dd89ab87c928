import WhenLoop.Parse.Statement
import WhenLoop.Run.Execute

/-!
# Interpreting a source

A source is read, and if nothing is wrong with it the tree is run on a new machine.  At
the end the bindings that the program leaves are logged in the order of their names.
-/

namespace WhenLoop

/-- More rounds than a loop makes in any time there is. -/
def ampleRounds : Nat := 4611686018427387904

/-- The program of a source, or what is wrong with the source. -/
def readProgram (source : String) : Except (List Report) Node :=
  let parsed := parse source
  if parsed.errors = 0 then .ok parsed.tree else .error parsed.reports

variable {σ : Type}

/-- Log the bindings of the machine. -/
def Machine.logBindings (m : Machine σ) : Machine σ :=
  m.store.toList.foldl (fun m binding => m.log (.binding binding.1 binding.2)) m

variable [Outlet σ]

/-- Run a program on a new machine with the given sink. -/
def runProgram (rounds : Nat) (sink : σ) (threshold : Option Level) (program : Node) :
    Option (Machine σ) :=
  ((Machine.new sink threshold).run rounds (some program)).map Machine.logBindings

/-- Read and run a source.  There is no result if a loop goes past its bound. -/
def interpret (rounds : Nat) (sink : σ) (threshold : Option Level) (source : String) :
    Option (Except (List Report) (Machine σ)) :=
  match readProgram source with
  | .error reports => some (.error reports)
  | .ok program => (runProgram rounds sink threshold program).map .ok

end WhenLoop
