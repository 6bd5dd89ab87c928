import WhenLoop.Proofs.Simulation

/-!
# Refusals of a sink do not steer a program

The same program runs on two machines that differ in their sinks only.  One sink has a
capacity and an allowance of flushes, the other has neither.  The first refuses some of the
outputs, reports the refusals, and goes on like the second.

What the two sinks have in common is the list of the values that were printed to them
(`Machine.Printed`).  From this list alone follows what the first sink took, which outputs it
refused and how often it flushed.  An output that is refused is not flushed, so the capacity
has a say in which of the later flushes are refused.
-/

namespace WhenLoop

open Machine (lineOf)

/-- One for a refusal. -/
def refused : Except Refusal Unit → Nat
  | .ok _ => 0
  | .error _ => 1

namespace Sink

/-- An empty sink that takes so many bytes and allows so many flushes. -/
def limited (capacity : Nat) (stalls : Bool) (flushes : Nat) : Sink where
  taken := .empty
  capacity := some capacity
  stalls := stalls
  flushes := some flushes

/-- Print a value to a sink. -/
def print (sink : Sink) (value : Int32) : Except Refusal Unit × Sink := Outlet.print sink value

/-- The sink after some values were printed to it, refused or not. -/
def printAll (sink : Sink) : List Int32 → Sink
  | [] => sink
  | value :: values => (sink.print value).2.printAll values

/-- How many of the values the sink refuses. -/
def refusals (sink : Sink) : List Int32 → Nat
  | [] => 0
  | value :: values => refused (sink.print value).1 + (sink.print value).2.refusals values

end Sink

/-- The lines of some values, one after the other. -/
def linesOf : List Int32 → ByteArray
  | [] => .empty
  | value :: values => lineOf value ++ linesOf values

theorem linesOf_concat (values : List Int32) (value : Int32) :
    linesOf (values ++ [value]) = linesOf values ++ lineOf value := by
  induction values with
  | nil => simp [linesOf]
  | cons first values ih =>
      rw [List.cons_append, linesOf, ih, linesOf, ByteArray.append_assoc]

/-! ## What a sink takes -/

theorem extract_min_size (bytes : ByteArray) (stop : Nat) :
    bytes.extract 0 (min stop bytes.size) = bytes.extract 0 stop := by
  have twice : (bytes.extract 0 bytes.size).extract 0 stop
      = bytes.extract 0 (min stop bytes.size) := by
    rw [ByteArray.extract_extract, Nat.zero_add, Nat.zero_add]
  rw [← twice, ByteArray.extract_zero_size]

namespace Sink

theorem outlet_write (sink : Sink) (bytes : ByteArray) :
    Outlet.write sink bytes = sink.write bytes := rfl

theorem outlet_flush (sink : Sink) : Outlet.flush sink = sink.flush := rfl

theorem outlet_print (sink : Sink) (value : Int32) : Outlet.print sink value = sink.print value :=
  rfl

theorem printAll_concat (sink : Sink) (values : List Int32) (value : Int32) :
    sink.printAll (values ++ [value]) = ((sink.printAll values).print value).2 := by
  induction values generalizing sink with
  | nil => rfl
  | cons first values ih => exact ih (sink.print first).2

/-- Another value is refused or not by the sink that the others left. -/
theorem refusals_concat (sink : Sink) (values : List Int32) (value : Int32) :
    sink.refusals (values ++ [value])
      = sink.refusals values + refused ((sink.printAll values).print value).1 := by
  induction values generalizing sink with
  | nil => simp [refusals, printAll]
  | cons first values ih =>
      rw [List.cons_append, refusals, ih, refusals, printAll, Nat.add_assoc]

theorem flush_taken (sink : Sink) : sink.flush.2.taken = sink.taken := by
  rw [flush]
  split <;> rfl

theorem flush_capacity (sink : Sink) : sink.flush.2.capacity = sink.capacity := by
  rw [flush]
  split <;> rfl

/-- Printing takes what a write of the line takes. -/
theorem print_taken (sink : Sink) (value : Int32) :
    (sink.print value).2.taken = (sink.write (lineOf value)).2.taken := by
  rw [print, Outlet.print, outlet_write]
  split
  · rename_i same
    rw [same]
  · rename_i same
    rw [same, outlet_flush, flush_taken]

/-- Printing does not change the bound on the bytes. -/
theorem print_capacity (sink : Sink) (value : Int32) :
    (sink.print value).2.capacity = sink.capacity := by
  have written : (sink.write (lineOf value)).2.capacity = sink.capacity := by
    rw [write]
    split <;> rfl
  rw [← written, print, Outlet.print, outlet_write]
  split
  · rename_i same
    rw [same]
  · rename_i same
    rw [same, outlet_flush, flush_capacity]

/-- A sink that holds what fits of some bytes holds, after a line, what fits of the bytes and
the line. -/
theorem print_extract {sink : Sink} {capacity : Nat} {bytes : ByteArray}
    (bound : sink.capacity = some capacity) (holds : sink.taken = bytes.extract 0 capacity)
    (value : Int32) :
    (sink.print value).2.taken = (bytes ++ lineOf value).extract 0 capacity := by
  have room : capacity - sink.taken.size = capacity - bytes.size := by
    rw [holds, ByteArray.size_extract]
    omega
  rw [print_taken, ByteArray.extract_append, ← holds, Nat.zero_sub, ← room]
  simp only [write, bound]

/-- By recursion on the values.  A sink that is full takes nothing more, so it has always the first
bytes of all that was printed. -/
theorem printAll_extract {capacity : Nat} :
    ∀ (values : List Int32) {sink : Sink} {bytes : ByteArray}, sink.capacity = some capacity →
      sink.taken = bytes.extract 0 capacity →
      (sink.printAll values).taken = (bytes ++ linesOf values).extract 0 capacity
  | [], sink, bytes, _, holds => by
      rw [printAll, linesOf, ByteArray.append_empty, holds]
  | value :: values, sink, bytes, bound, holds => by
      have bound' := (sink.print_capacity value).trans bound
      have holds' := print_extract bound holds value
      rw [printAll, linesOf, ← ByteArray.append_assoc]
      exact printAll_extract values bound' holds'

/-- A sink with a capacity takes the first bytes of all that is printed. -/
theorem limited_printAll_taken (capacity : Nat) (stalls : Bool) (flushes : Nat)
    (values : List Int32) :
    ((limited capacity stalls flushes).printAll values).taken
      = (linesOf values).extract 0 capacity := by
  have nothing : ByteArray.empty.extract 0 capacity = ByteArray.empty := by
    rw [ByteArray.extract_eq_empty_iff, ByteArray.size_empty]
    omega
  have holds : (limited capacity stalls flushes).taken = ByteArray.empty.extract 0 capacity := by
    rw [nothing, limited]
  have taken := printAll_extract values rfl holds
  rwa [ByteArray.empty_append] at taken

end Sink

/-! ## Runs on two sinks -/

namespace Machine

/-- What printing leaves once a refusal is reported. -/
theorem settle_print (m : Machine Sink) (value : Int32) :
    (settle .out (m.print value)).store = m.store ∧
    (settle .out (m.print value)).sink = (m.sink.print value).2 ∧
    (settle .out (m.print value)).errors = m.errors + refused (m.sink.print value).1 := by
  rw [print_eq, Sink.outlet_print]
  cases (m.sink.print value).1 with
  | ok done => exact ⟨rfl, rfl, rfl⟩
  | error refusal => simp [settle, mapError_error, refused]

/-- Two machines that printed the same values and are alike but for the refusals of the first
sink.  The second sink has no bounds. -/
structure Printed (start : Sink) (values : List Int32) (m n : Machine Sink) : Prop where
  store : m.store = n.store
  sink : m.sink = start.printAll values
  free : n.sink = { Sink.unlimited with taken := linesOf values }
  errors : m.errors = n.errors + start.refusals values

/-- Both machines print the value, and only the first may be refused. -/
theorem Printed.print {start : Sink} {values : List Int32} {m n : Machine Sink}
    (h : Printed start values m n) (value : Int32) :
    Printed start (values ++ [value]) (settle .out (m.print value))
      (settle .out (n.print value)) := by
  obtain ⟨mStore, mSink, mErrors⟩ := m.settle_print value
  obtain ⟨nStore, nSink, nErrors⟩ := n.settle_print value
  have taken : n.sink.print value
      = (.ok (), { Sink.unlimited with taken := linesOf values ++ lineOf value }) := by
    rw [h.free]
    rfl
  rw [taken] at nSink nErrors
  refine ⟨?_, ?_, ?_, ?_⟩
  · rw [mStore, nStore, h.store]
  · rw [mSink, h.sink, Sink.printAll_concat]
  · rw [nSink, linesOf_concat]
  · rw [mErrors, nErrors, h.errors, h.sink, Sink.refusals_concat, refused]
    omega

/-- Every action keeps the relation, and printing adds a value to the list. -/
theorem printed_simulation (start : Sink) :
    Simulation fun m n => ∃ values, Printed start values m n where
  log := by
    rintro m n ⟨values, h⟩ event
    refine ⟨values, ?_, ?_, ?_, ?_⟩
    · simp [h.store]
    · simp [h.sink]
    · simp [h.free]
    · simp [h.errors]
  fail := by
    rintro m n ⟨values, h⟩ failure
    refine ⟨values, h.store, h.sink, h.free, ?_⟩
    rw [fail_errors, fail_errors, h.errors]
    omega
  evaluate := by
    rintro m n α e ⟨values, h⟩ _
    rw [h.store]
    exact ⟨rfl, values, rfl, h.sink, h.free, h.errors⟩
  assign := by
    rintro m n ⟨values, h⟩ name value
    refine ⟨values, ?_, h.sink, h.free, h.errors⟩
    rw [assign, assign, h.store]
  print := by
    rintro m n ⟨values, h⟩ value
    exact ⟨values ++ [value], h.print value⟩

/-! ## The end of a program -/

/-- To finish flushes once more, and counts a refusal of that. -/
theorem finish_fields (m : Machine Sink) :
    m.finish.store = m.store ∧ m.finish.sink = m.sink.flush.2 ∧
    m.finish.errors = m.errors + refused m.sink.flush.1 := by
  cases h : m.sink.flush with
  | mk result sink =>
      rw [finish, flush, Sink.outlet_flush, h]
      cases result with
      | ok done => simp [mapError_ok, refused]
      | error refusal => simp [mapError_error, refused]

/-- A program ends on a sink with bounds if and only if it ends on a sink without, and then
with the same store.  The first sink takes the first bytes of what the second takes.  The
failures it adds are the outputs it refuses, and the last flush if it refuses that. -/
theorem run_sink_independent (root : Option Node) (m : Machine Sink) (capacity flushes : Nat)
    (stalls : Bool) :
    ((∃ m', RunsTo { m with sink := Sink.limited capacity stalls flushes } root m') ↔
      ∃ n', RunsTo { m with sink := Sink.unlimited } root n') ∧
    ∀ m' n', RunsTo { m with sink := Sink.limited capacity stalls flushes } root m' →
      RunsTo { m with sink := Sink.unlimited } root n' →
      m'.store = n'.store ∧
      m'.sink.taken = n'.sink.taken.extract 0 (min capacity n'.sink.taken.size) ∧
      ∃ values, n'.sink.taken = linesOf values ∧
        m'.sink = ((Sink.limited capacity stalls flushes).printAll values).flush.2 ∧
        m'.errors = n'.errors + (Sink.limited capacity stalls flushes).refusals values
          + refused ((Sink.limited capacity stalls flushes).printAll values).flush.1 := by
  have sim := printed_simulation (.limited capacity stalls flushes)
  have rel : ∃ values, Printed (.limited capacity stalls flushes) values
      { m with sink := Sink.limited capacity stalls flushes } { m with sink := Sink.unlimited } :=
    ⟨[], rfl, rfl, rfl, rfl⟩
  obtain ⟨together, related⟩ := sim.runsTo root rel
  refine ⟨together, ?_⟩
  intro m' n' ends ends'
  obtain ⟨a, b, ⟨values, h⟩, rfl, rfl⟩ := related m' n' ends ends'
  obtain ⟨aStore, aSink, aErrors⟩ := a.finish_fields
  obtain ⟨bStore, bSink, bErrors⟩ := b.finish_fields
  rw [h.free] at bSink bErrors
  have taken : b.finish.sink.taken = linesOf values := by
    rw [bSink, Sink.flush_taken]
  refine ⟨?_, ?_, values, taken, ?_, ?_⟩
  · rw [aStore, bStore, h.store]
  · rw [aSink, taken, Sink.flush_taken, h.sink, Sink.limited_printAll_taken, extract_min_size]
  · rw [aSink, h.sink]
  · have flushed : refused (Sink.flush { Sink.unlimited with taken := linesOf values }).1 = 0 := rfl
    rw [aErrors, bErrors, flushed, h.errors, h.sink]
    omega

/-- A sink for four bytes cuts the second number off. -/
theorem run_sink_independent_cut :
    ∃ m' n', RunsTo (.new (Sink.limited 4 false 1) none)
        (some (.seq [.out (.num 12), .out (.num 34)])) m' ∧
      RunsTo (.new Sink.unlimited none) (some (.seq [.out (.num 12), .out (.num 34)])) n' ∧
      m'.errors = 2 ∧ m'.sink.taken = n'.sink.taken.extract 0 (min 4 n'.sink.taken.size) := by
  refine ⟨_, _, ⟨1, rfl⟩, ⟨1, rfl⟩, ?_, ?_⟩
  · decide +kernel
  · have independent := (run_sink_independent (some (.seq [.out (.num 12), .out (.num 34)]))
      (.new Sink.unlimited none) 4 1 false).2 _ _ ⟨1, rfl⟩ ⟨1, rfl⟩
    exact independent.2.1

end Machine

end WhenLoop
