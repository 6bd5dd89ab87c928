import WhenLoop.Interpret
import WhenLoop.Proofs.Completeness
import WhenLoop.Proofs.Moves

/-!
# The accepted sources

A source is accepted if reading it counts no error, and so reports nothing, since every report
is counted.  This is the case exactly if scanning it finds no fault and its tokens derive from
the grammar, within 128 levels of nesting and 512 operators in each expression and condition.
The tree that is read is then the tree of the derivation.

So the two directions give more than they say one by one.  Every derivation of the tokens
of a source has the same tree, since reading is a function, and what the grammar says of
trees holds of every program that is run.
-/

namespace WhenLoop

open Grammar

/-- Reading a source counts what it reports. -/
theorem parse_errors_eq (source : String) :
    (parse source).errors = (parse source).reports.length := by
  have accurate := (program_works (State.ofScan_depth (scan source))).accurate
    (State.ofScan_accurate (scan source))
  exact accurate.errors.trans List.length_reverse.symm

theorem parse_errors_eq_zero {source : String} :
    (parse source).errors = 0 ↔ (parse source).reports = [] := by
  rw [parse_errors_eq, List.length_eq_zero_iff]

/-- An accepted source has tokens and no faults, and they derive its tree. -/
theorem parse_sound {source : String} (silent : (parse source).reports = []) :
    ∃ tokens : List Token, (scan source).items = tokens.map .token ∧
      Program maxOperators maxNesting tokens (parse source).tree := by
  have read : (program (.ofScan (scan source))).2.reports = [] := List.reverse_eq_nil_iff.mp silent
  have started := State.reports_eq_nil (program_grows _) read
  obtain ⟨quiet, upcoming⟩ := State.ofScan_quiet (scan_ended source) started
  obtain ⟨tokens, same, derives⟩ := program_sound quiet read
  exact ⟨tokens, upcoming.symm.trans same, .whole derives⟩

/-- A source whose tokens derive a tree is accepted with this tree. -/
theorem parse_complete {source : String} {tokens : List Token} {tree : Node}
    (items : (scan source).items = tokens.map .token)
    (h : Program maxOperators maxNesting tokens tree) :
    (parse source).reports = [] ∧ (parse source).tree = tree := by
  cases h with
  | whole derives =>
      have start := State.ofScan_at (scan_ended source) items
      obtain ⟨same, silent⟩ := program_complete start derives
      exact ⟨List.reverse_eq_nil_iff.mpr silent, congrArg Node.seq same⟩

/-- Reading a source counts no error and gives a tree exactly if the source has no
lexical fault and its tokens derive the tree from the grammar within the two limits. -/
theorem parse_accepts_iff (source : String) (tree : Node) :
    ((parse source).errors = 0 ∧ (parse source).tree = tree) ↔
      ∃ tokens : List Token, (scan source).items = tokens.map .token ∧
        Program 512 128 tokens tree := by
  rw [parse_errors_eq_zero]
  constructor
  · rintro ⟨silent, rfl⟩
    exact parse_sound silent
  · rintro ⟨tokens, items, derives⟩
    exact parse_complete items derives

/-- A program is read if nothing was reported, and its tree is the one that was parsed. -/
theorem readProgram_eq_ok {source : String} {tree : Node} :
    readProgram source = .ok tree ↔ (parse source).reports = [] ∧ (parse source).tree = tree := by
  rw [readProgram, ← parse_errors_eq_zero]
  split
  · rename_i none
    simp [none]
  · rename_i some
    simp [some]

end WhenLoop
