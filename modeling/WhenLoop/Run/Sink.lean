/-!
# Where output goes

Output goes to an outlet.  An outlet can be written to and flushed, and it may refuse either, with
a message that says why.  `Outlet` asks for no more than this, so what is shown of programs on
outlets holds of every place that output can go to.

A `Sink` is an outlet that keeps what it takes.  It may have a capacity in bytes.  A write that
does not fit is taken up to the capacity and then refused, so a sink can hold a part of a number.
A sink may also allow only a number of flushes, and refuse those after them.  A sink with neither
bound never refuses anything.  A program that is run as a command writes to such a sink, and a
sink is what is meant where no outlet is named.
-/

namespace WhenLoop

/-- Why a write or a flush was refused. -/
structure Refusal where
  /-- The refusal in words. -/
  message : String
deriving DecidableEq, Repr, Inhabited

/-- What can be written to and flushed. -/
class Outlet (σ : Type) where
  /-- Write bytes.  A write that is refused may have taken some of them. -/
  write : σ → ByteArray → Except Refusal Unit × σ
  /-- Flush what was written. -/
  flush : σ → Except Refusal Unit × σ

/-! ## Sinks -/

namespace Refusal

/-- A sink is full and says so. -/
def closed : Refusal := ⟨"closed"⟩

/-- A sink is full and takes no bytes, without saying why. -/
def stalled : Refusal := ⟨"failed to write whole buffer"⟩

/-- A sink allows no more flushes. -/
def flushRefused : Refusal := ⟨"flush refused"⟩

end Refusal

/-- A place for output. -/
structure Sink where
  /-- The bytes taken so far. -/
  taken : ByteArray
  /-- How many bytes the sink takes in all.  Without a bound it takes any number. -/
  capacity : Option Nat
  /-- Whether a full sink stalls, and does not say that it is closed. -/
  stalls : Bool
  /-- How many more flushes the sink allows.  Without a bound it allows any number. -/
  flushes : Option Nat
deriving Inhabited

namespace Sink

/-- The empty sink that never refuses anything. -/
def unlimited : Sink where
  taken := .empty
  capacity := none
  stalls := false
  flushes := none

/-- Take bytes, as many as fit, and refuse the write if not all do. -/
def write (sink : Sink) (bytes : ByteArray) : Except Refusal Unit × Sink :=
  match sink.capacity with
  | none => (.ok (), { sink with taken := sink.taken ++ bytes })
  | some capacity =>
      let room := capacity - sink.taken.size
      (if bytes.size ≤ room then .ok ()
        else .error (if sink.stalls then .stalled else .closed),
       { sink with taken := sink.taken ++ bytes.extract 0 room })

/-- Flush, if a flush is still allowed. -/
def flush (sink : Sink) : Except Refusal Unit × Sink :=
  match sink.flushes with
  | none => (.ok (), sink)
  | some 0 => (.error .flushRefused, sink)
  | some (left + 1) => (.ok (), { sink with flushes := some left })

@[default_instance]
instance : Outlet Sink where
  write := write
  flush := flush

end Sink

end WhenLoop
