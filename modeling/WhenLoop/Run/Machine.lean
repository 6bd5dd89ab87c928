import WhenLoop.Run.Evaluate
import WhenLoop.Run.Log

/-!
# The machine

A machine is what a program runs on: a store, a sink, a count of the failures so far, and
a journal.  The sink may be any outlet.  The journal holds, in order, the failures that were
reported and the events that were logged.  An event below the threshold is not written to it.

An action of a machine gives a result and leaves a machine, also when it fails.
-/

namespace WhenLoop

/-- An entry of a journal. -/
inductive Notice where
  /-- A logged event. -/
  | log (event : LogEvent)
  /-- A reported failure. -/
  | failed (failure : Failure)
deriving DecidableEq, Repr

/-- What a program runs on. -/
structure Machine (σ : Type := Sink) where
  /-- The values of the names. -/
  store : Store
  /-- Where output goes. -/
  sink : σ
  /-- How many failures were reported. -/
  errors : Nat
  /-- The least level of events that the journal takes. -/
  threshold : Option Level
  /-- What was reported and logged, in order. -/
  journal : Array Notice

namespace Machine

variable {σ : Type}

/-- A machine before any program. -/
def new (sink : σ) (threshold : Option Level) : Machine σ where
  store := .empty
  sink := sink
  errors := 0
  threshold := threshold
  journal := #[]

/-- Log an event, if the threshold keeps it. -/
def log (m : Machine σ) (event : LogEvent) : Machine σ :=
  if event.level.passes m.threshold then { m with journal := m.journal.push (.log event) } else m

/-- Report a failure and count it. -/
def fail (m : Machine σ) (failure : Failure) : Machine σ :=
  { m with errors := m.errors + 1, journal := m.journal.push (.failed failure) }

/-- Evaluate on the machine's store. -/
def evaluate {α : Type} (m : Machine σ) (evaluation : Evaluation α) :
    Except Failure α × Machine σ :=
  let (result, store) := evaluation m.store
  (result, { m with store := store })

/-- Bind a name to a value. -/
def assign (m : Machine σ) (name : String) (value : Int32) : Machine σ :=
  { m with store := m.store.write name value }

/-! ## Output -/

variable [Outlet σ]

/-- The bytes of the output of a value: the value and a line feed. -/
def lineOf (value : Int32) : ByteArray :=
  (value.toInt.repr ++ "\n").toUTF8

/-- Write bytes to the sink. -/
def write (m : Machine σ) (bytes : ByteArray) : Except Failure Unit × Machine σ :=
  let (result, sink) := Outlet.write m.sink bytes
  (result.mapError .output, { m with sink := sink })

/-- Flush the sink. -/
def flush (m : Machine σ) : Except Failure Unit × Machine σ :=
  let (result, sink) := Outlet.flush m.sink
  (result.mapError .output, { m with sink := sink })

/-- Write a value and flush.  After a refused write there is no flush. -/
def print (m : Machine σ) (value : Int32) : Except Failure Unit × Machine σ :=
  match m.write (lineOf value) with
  | (.error failure, m) => (.error failure, m)
  | (.ok _, m) => m.flush

end Machine

end WhenLoop
