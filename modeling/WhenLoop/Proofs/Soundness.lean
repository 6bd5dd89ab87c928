import WhenLoop.Proofs.Grammar
import WhenLoop.Proofs.Quiet

/-!
# What is read without a report derives from the grammar

A parser is sound for a language if from a quiet state it either reports something or reads
tokens of the language and gives their tree.  The proofs go up the ladder the way the
parsers are put together: from the parsers of what is one level deeper to the primaries, and
from there rung by rung to whole expressions, and then to statements.

A chain of operators is read from left to right, and every operator makes what was read
so far its left operand.  So the phrase read so far is what the induction along a chain
carries (`Rung.chain_sound`).

A statement whose tree ends in a `when` without an `else` is never followed by an `else`,
since the parser of that `when` would have taken it.  `StatementSound` carries this, and it
is what makes an `else` go with the nearest `when`.
-/

namespace WhenLoop

open Grammar

namespace State

variable {s : State}

theorem Quiet.with_depth (h : s.Quiet) (depth : Nat) : { s with depth := depth }.Quiet :=
  ⟨h.reports, h.panicking, h.operators, h.finish, h.head, h.ends⟩

theorem Quiet.with_operators (h : s.Quiet) {operators : Nat} (le : operators ≤ maxOperators) :
    { s with operators := operators }.Quiet :=
  ⟨h.reports, h.panicking, le, h.finish, h.head, h.ends⟩

end State

/-! ## Sound parsers -/

/-- A language relates the number of operators, the tokens and the tree of a phrase. -/
abbrev Language := Nat → List Token → Node → Prop

namespace Parser

/-- From a quiet state the parser reports something, or it reads a phrase of the language. -/
def Sound (p : Parser) (language : Language) : Prop :=
  ∀ s, s.Quiet → (p s).2.reports = [] →
    ∃ k ts, language k ts (p s).1 ∧ s.Reads ts (p s).2 ∧ (p s).2.operators = s.operators + k

/-- A parser that is sound for a language is sound for a larger one. -/
theorem Sound.mono {p : Parser} {language larger : Language} (h : p.Sound language)
    (le : ∀ {k ts node}, language k ts node → larger k ts node) : p.Sound larger := by
  intro s quiet silent
  obtain ⟨k, ts, phrase, reads, count⟩ := h s quiet silent
  exact ⟨k, ts, le phrase, reads, count⟩

theorem Sound.nested {p : Parser} {language : Language} (h : p.Sound language) :
    p.nested.Sound language := by
  intro s quiet silent
  obtain ⟨k, ts, phrase, reads, count⟩ := h _ (quiet.with_depth (s.depth + 1)) silent
  exact ⟨k, ts, phrase, ⟨reads.upcoming, reads.quiet.with_depth _⟩, count⟩

theorem tooDeep_sound (node : Node) (language : Language) : (tooDeep node).Sound language :=
  fun _ quiet silent => absurd silent (quiet.abort_ne_nil _)

/-- An operator without a report behind it is within the limit, and the parse goes on. -/
theorem counted_eq {node : Node} {p : Parser} {s : State} (quiet : s.Quiet)
    (silent : (p.counted node s).2.reports = []) :
    { s with operators := s.operators + 1 }.Quiet ∧
      p.counted node s = p { s with operators := s.operators + 1 } := by
  simp only [counted] at silent ⊢
  split at silent
  · rename_i le
    exact ⟨quiet.with_operators le, if_pos le⟩
  · exfalso
    have grown := State.reports_eq_nil (State.skip_grows ..) silent
    have honest : { s with operators := s.operators + 1 }.Honest := quiet.honest
    exact honest.report_ne_nil _ grown

end Parser

/-! ## Chains -/

namespace Rung

/-- No operator joins at the end of the source. -/
def Ends (rung : Rung) : Prop := rung.join? .endOfInput = none

theorem Ends.inside {rung : Rung} (ends : rung.Ends) {kind : TokenKind}
    {join : Node → Node → Node} (h : rung.join? kind = some join) : kind ≠ .endOfInput := by
  rintro rfl
  rw [ends] at h
  cases h

/-- The rules for a rung: one operand is a phrase, and so is a phrase with one more
operator and operand behind it. -/
structure Fits (rung : Rung) (rank operand : Rank) : Prop where
  ends : rung.Ends
  one {levels k : Nat} {ts : List Token} {node : Node} :
    Phrase operand levels k ts node → Phrase rank levels k ts node
  more {levels j k : Nat} {op : Token} {join : Node → Node → Node} {ls rs : List Token}
    {left right : Node} :
    Phrase rank levels j ls left → rung.join? op.kind = some join →
    Phrase operand levels k rs right →
    (rung.integers = true → left.isCondition = false ∧ right.isCondition = false) →
    Phrase rank levels (j + 1 + k) (ls ++ op :: rs) (join left right)

/-- The rules for `or` are those of the rung. -/
theorem disjunction_fits : disjunction.Fits .or .and where
  ends := rfl
  one := .ofAnd
  more {_ _ _ op join _ _ _ _} hl hop hr _ := by
    cases kind : op.kind <;> rw [kind] at hop <;> cases hop
    exact .disjunction hl kind hr

theorem conjunction_fits : conjunction.Fits .and .not where
  ends := rfl
  one := .ofNot
  more {_ _ _ op join _ _ _ _} hl hop hr _ := by
    cases kind : op.kind <;> rw [kind] at hop <;> cases hop
    exact .conjunction hl kind hr

/-- The rules for terms are those of the rung. -/
theorem sum_fits : sum.Fits .term .factor where
  ends := rfl
  one := .ofFactor
  more {_ _ _ op join _ _ _ _} hl hop hr hi := by
    obtain ⟨il, ir⟩ := hi rfl
    cases kind : op.kind <;> rw [kind] at hop <;> cases hop
    · exact .sum hl (by simp [kind, termSigns]) hr il ir
    · exact .sum hl (by simp [kind, termSigns]) hr il ir

theorem product_fits : product.Fits .factor .unary where
  ends := rfl
  one := .ofUnary
  more {_ _ _ op join _ _ _ _} hl hop hr hi := by
    obtain ⟨il, ir⟩ := hi rfl
    cases kind : op.kind <;> rw [kind] at hop <;> cases hop
    · exact .product hl (by simp [kind, factorSigns]) hr il ir
    · exact .product hl (by simp [kind, factorSigns]) hr il ir
    · exact .product hl (by simp [kind, factorSigns]) hr il ir

/-- An operand without a report behind it is what the rung asks for. -/
theorem checkOperand_eq {rung : Rung} {s : State} {node : Node} (quiet : s.Quiet)
    (silent : (rung.checkOperand s node).reports = []) :
    (rung.integers = true → node.isCondition = false) ∧ rung.checkOperand s node = s := by
  rw [checkOperand] at silent ⊢
  split at silent
  · rename_i integers
    rw [if_pos integers]
    obtain ⟨other, same⟩ := quiet.reportCondition_eq silent
    exact ⟨fun _ => other, same⟩
  · rename_i any
    exact ⟨fun integers => absurd integers any, if_neg any⟩

section Chain

variable {rung : Rung} {operand : Parser} {language : Language}

/-- What one step along a chain does: there is no operator, or an operator and an operand
are read and the chain goes on behind them. -/
theorem chain_step (ends : rung.Ends) (sound : operand.Sound language) (grows : operand.Grows)
    {most : Nat} {left : Node} {s : State} (quiet : s.Quiet)
    (silent : (rung.chain operand (most + 1) left s).2.reports = []) :
    rung.chain operand (most + 1) left s = (left, s) ∨
      ∃ join k rs right s', rung.join? s.current.kind = some join ∧ language k rs right ∧
        (rung.integers = true → left.isCondition = false ∧ right.isCondition = false) ∧
        s.Reads (s.current :: rs) s' ∧ s'.operators = s.operators + 1 + k ∧
        rung.chain operand (most + 1) left s = rung.chain operand most (join left right) s' := by
  cases joins : rung.join? s.current.kind with
  | none => exact .inl (chain_of_none joins ..)
  | some join =>
      rw [chain_of_some joins] at silent ⊢
      have readsOp := quiet.advance_reads (ends.inside joins)
        (State.reports_eq_nil
          ((link_grows grows (chain_grows grows most) join left).counted left _) silent)
      obtain ⟨quietOp, goesOn⟩ := Parser.counted_eq readsOp.quiet silent
      rw [goesOn] at silent ⊢
      -- Every state on the way has no report, from the last one back to the first.
      have checked := State.reports_eq_nil (chain_grows grows most _ _) silent
      have readRight := State.reports_eq_nil (rung.checkOperand_grows _ _) checked
      obtain ⟨leftOk, sameLeft⟩ :=
        checkOperand_eq quietOp (State.reports_eq_nil (grows _) readRight)
      rw [sameLeft] at checked readRight
      obtain ⟨k, rs, phrase, reads, count⟩ := sound _ quietOp readRight
      obtain ⟨rightOk, sameRight⟩ := checkOperand_eq reads.quiet checked
      refine .inr ⟨join, k, rs, _, _, rfl, phrase, fun i => ⟨leftOk i, rightOk i⟩,
        readsOp.trans ⟨reads.upcoming, reads.quiet⟩, ?_, ?_⟩
      · rw [count, State.advance_operators]
      · simp only [link, sameLeft, sameRight]

/-- A chain without a report goes on with the phrase before it. -/
theorem chain_sound {rank tighter : Rank} {levels : Nat} (fits : rung.Fits rank tighter)
    (sound : operand.Sound (Phrase tighter levels)) (grows : operand.Grows) :
    ∀ (most : Nat) {left : Node} {j : Nat} {ls : List Token}, Phrase rank levels j ls left →
      (rung.chain operand most left).Sound
        fun k ts node => Phrase rank levels (j + k) (ls ++ ts) node
  | 0, left, j, ls, phrase => fun s quiet _ =>
      ⟨0, [], by simpa [chain] using phrase, quiet.reads_nil, rfl⟩
  | most + 1, left, j, ls, phrase => by
      intro s quiet silent
      obtain same | ⟨join, i, rs, right, s', joins, operand, integers, reads, count, same⟩ :=
        chain_step fits.ends sound grows quiet silent
      · rw [same]
        exact ⟨0, [], by simpa using phrase, quiet.reads_nil, rfl⟩
      · rw [same] at silent ⊢
        have longer := fits.more phrase joins operand integers
        obtain ⟨k, ts, whole, readsRest, countRest⟩ :=
          chain_sound fits sound grows most longer s' reads.quiet silent
        refine ⟨1 + i + k, s.current :: rs ++ ts, ?_, reads.trans readsRest, ?_⟩
        · simpa [Nat.add_assoc] using whole
        · omega

/-- Operands with operators between them are a phrase, if the operands are and the rung fits the
rules. -/
theorem many_sound {rank tighter : Rank} {levels : Nat} (fits : rung.Fits rank tighter)
    (sound : operand.Sound (Phrase tighter levels)) (grows : operand.Grows) :
    (rung.many operand).Sound (Phrase rank levels) := by
  intro s quiet silent
  have first := State.reports_eq_nil (chain_grows grows _ _ _) silent
  obtain ⟨j, ls, phrase, reads, count⟩ := sound s quiet first
  obtain ⟨k, ts, whole, readsRest, countRest⟩ :=
    chain_sound fits sound grows _ (fits.one phrase) _ reads.quiet silent
  refine ⟨j + k, ls ++ ts, whole, reads.trans readsRest, ?_⟩
  exact countRest.trans (by rw [count, Nat.add_assoc])

end Chain

theorem comparison_ends : comparison.Ends := rfl

/-- A sign of a comparison joins as the rule for comparisons says. -/
theorem comparison_more {levels j k : Nat} {op : Token} {join : Node → Node → Node}
    {ls rs : List Token} {left right : Node} (hl : Phrase .term levels j ls left)
    (hop : comparison.join? op.kind = some join) (hr : Phrase .term levels k rs right)
    (il : left.isCondition = false) (ir : right.isCondition = false) :
    Phrase .comparison levels (j + 1 + k) (ls ++ op :: rs) (join left right) := by
  cases kind : op.kind <;> rw [kind] at hop <;> cases hop <;>
    exact .compare hl (by simp [kind, comparisonSigns]) hr il ir

/-- One comparison or what stands on one side of it is a phrase, if the sides are. -/
theorem comparison_once_sound {operand : Parser} {levels : Nat}
    (sound : operand.Sound (Phrase .term levels)) (grows : operand.Grows) :
    (comparison.once operand).Sound (Phrase .comparison levels) := by
  intro s quiet silent
  have first := State.reports_eq_nil (chain_grows grows _ _ _) silent
  obtain ⟨j, ls, phrase, reads, count⟩ := sound s quiet first
  change ∃ k ts, Phrase .comparison levels k ts (comparison.chain operand 1 _ _).1 ∧
    s.Reads ts (comparison.chain operand 1 _ _).2 ∧
    (comparison.chain operand 1 _ _).2.operators = s.operators + k
  obtain same | ⟨join, k, rs, right, s', joins, operand, integers, readsRest, countRest, same⟩ :=
    chain_step comparison_ends sound grows reads.quiet silent
  · rw [same]
    exact ⟨j, ls, .ofTerm phrase, reads, count⟩
  · rw [same]
    obtain ⟨il, ir⟩ := integers rfl
    refine ⟨j + 1 + k, _, comparison_more phrase joins operand il ir, reads.trans readsRest, ?_⟩
    exact countRest.trans (by rw [count]; omega)

end Rung

/-! ## The ladder -/

/-- A literal that has a value is within the integers and denotes it. -/
theorem literal?_eq_some {digits : List Char} {v : Int32} (h : literal? digits = some v) :
    Nat.ofDigitChars 10 digits 0 ≤ 2147483647 ∧
      v = Int32.ofNat (Nat.ofDigitChars 10 digits 0) := by
  rw [literal?] at h
  split at h
  · rename_i le
    exact ⟨le, (Option.some.inj h).symm⟩
  · cases h

namespace Deeper

/-- The parsers of `d` are sound, when `levels` more levels may be opened. -/
structure Sound (d : Deeper) (levels : Nat) : Prop where
  group : d.group.Sound fun k ts node => ∃ n, levels = n + 1 ∧ Phrase .or n k ts node
  negation : d.negation.Sound fun k ts node =>
    ∀ {op : Token}, op.kind = .not → Phrase .not levels (k + 1) (op :: ts) node
  negative : d.negative.Sound fun k ts node =>
    ∀ {op : Token}, op.kind = .minus → Phrase .unary levels (k + 1) (op :: ts) node

variable {d : Deeper} {levels : Nat}

/-- A primary that is read without a report is a number, a name or a group of the grammar. -/
theorem Sound.primary (h : d.Sound levels) (grows : d.Grows) :
    d.primary.Sound (Phrase .primary levels) := by
  intro s quiet
  rw [Deeper.primary]
  split
  · rename_i kind
    have inside : s.current.kind ≠ .endOfInput := by simp [kind]
    split
    · rename_i value fits
      intro silent
      obtain ⟨le, rfl⟩ := literal?_eq_some fits
      exact ⟨0, [s.current], .number kind rfl le, quiet.advance_reads inside silent,
        s.advance_operators⟩
    · exact fun silent => absurd silent (quiet.advance_report_ne_nil _)
  · rename_i kind
    have inside : s.current.kind ≠ .endOfInput := by simp [kind]
    intro silent
    exact ⟨0, [s.current], .name kind, quiet.advance_reads inside silent, s.advance_operators⟩
  · rename_i kind
    have inside : s.current.kind ≠ .endOfInput := by simp [kind]
    intro silent
    have closed := State.reports_eq_nil (State.expect_grows _ _ _) silent
    have opened := quiet.advance_reads inside (State.reports_eq_nil (grows.group _) closed)
    obtain ⟨k, ts, ⟨n, rfl, phrase⟩, reads, count⟩ := h.group _ opened.quiet closed
    obtain ⟨close, readsClose⟩ := reads.quiet.expect_reads (by simp) silent
    refine ⟨k, _, .group kind phrase close, (opened.trans reads).trans readsClose, ?_⟩
    rw [State.expect_operators, count, State.advance_operators]
  · exact fun silent => absurd silent (quiet.advance_report_ne_nil _)

/-- A prefix operator is counted, and what follows it is read one level deeper. -/
theorem Sound.prefixed {p : Parser} {language : Language} (h : p.Sound language) (grows : p.Grows)
    {s : State} (quiet : s.Quiet) (inside : s.current.kind ≠ .endOfInput)
    (silent : (p.counted (.num 0) s.advance).2.reports = []) :
    ∃ k ts, language k ts (p.counted (.num 0) s.advance).1 ∧
      s.Reads (s.current :: ts) (p.counted (.num 0) s.advance).2 ∧
      (p.counted (.num 0) s.advance).2.operators = s.operators + (k + 1) := by
  have reads := quiet.advance_reads inside (State.reports_eq_nil (grows.counted _ _) silent)
  obtain ⟨quietOp, goesOn⟩ := Parser.counted_eq reads.quiet silent
  rw [goesOn] at silent ⊢
  obtain ⟨k, ts, phrase, readsRest, count⟩ := h _ quietOp silent
  refine ⟨k, ts, phrase, reads.trans ⟨readsRest.upcoming, readsRest.quiet⟩, ?_⟩
  rw [count, State.advance_operators, Nat.add_assoc, Nat.add_comm 1 k]

/-- A primary with signs before it is a phrase, and every sign is an operator of it. -/
theorem Sound.signed (h : d.Sound levels) (grows : d.Grows) :
    d.signed.Sound (Phrase .unary levels) := by
  intro s quiet
  rw [Deeper.signed]
  split
  · rename_i kind
    intro silent
    obtain ⟨k, ts, phrase, reads, count⟩ :=
      Sound.prefixed h.negative grows.negative quiet (by simp [kind]) silent
    exact ⟨k + 1, _, phrase kind, reads, count⟩
  · intro silent
    exact (h.primary grows).mono .ofPrimary s quiet silent

theorem Sound.comparison (h : d.Sound levels) (grows : d.Grows) :
    d.comparison.Sound (Phrase .comparison levels) :=
  have product := Rung.many_sound Rung.product_fits (h.signed grows) grows.signed
  have sum := Rung.many_sound Rung.sum_fits product (Rung.many_grows grows.signed)
  Rung.comparison_once_sound sum (Rung.many_grows (Rung.many_grows grows.signed))

/-- A comparison with `not` before it is a phrase, and every `not` is an operator of it. -/
theorem Sound.negated (h : d.Sound levels) (grows : d.Grows) :
    d.negated.Sound (Phrase .not levels) := by
  intro s quiet
  rw [Deeper.negated]
  split
  · rename_i kind
    intro silent
    obtain ⟨k, ts, phrase, reads, count⟩ :=
      Sound.prefixed h.negation grows.negation quiet (by simp [kind]) silent
    exact ⟨k + 1, _, phrase kind, reads, count⟩
  · intro silent
    exact (h.comparison grows).mono .ofComparison s quiet silent

theorem Sound.ladder (h : d.Sound levels) (grows : d.Grows) :
    d.ladder.Sound (Phrase .or levels) :=
  have conjunction := Rung.many_sound Rung.conjunction_fits (h.negated grows) grows.negated
  Rung.many_sound Rung.disjunction_fits conjunction (Rung.many_grows grows.negated)

/-- One more level of nesting keeps the parsers sound. -/
theorem Sound.next (h : d.Sound levels) (grows : d.Grows) : d.next.Sound (levels + 1) where
  group := (h.ladder grows).nested.mono fun phrase => ⟨levels, rfl, phrase⟩
  negation := by
    intro s quiet silent
    rw [next_negation] at silent ⊢
    obtain ⟨k, ts, phrase, reads, count⟩ := (h.negated grows).nested s quiet silent
    exact ⟨k, ts, fun kind => .negation kind phrase, reads, count⟩
  negative := by
    intro s quiet silent
    rw [next_negative] at silent ⊢
    have read := State.reports_eq_nil (State.reportCondition_grows _ _ _) silent
    obtain ⟨k, ts, phrase, reads, count⟩ := (h.signed grows).nested s quiet read
    obtain ⟨integer, same⟩ := reads.quiet.reportCondition_eq silent
    rw [same]
    exact ⟨k, ts, fun kind => .negative kind phrase integer, reads, count⟩

end Deeper

/-- The parsers inside any number of levels are sound. -/
theorem deeper_sound : ∀ levels : Nat, (deeper levels).Sound levels
  | 0 => ⟨Parser.tooDeep_sound _ _, Parser.tooDeep_sound _ _, Parser.tooDeep_sound _ _⟩
  | levels + 1 => (deeper_sound levels).next (deeper_grows levels)

/-- An expression that is read without a report is one of the grammar, within the limit on
operators. -/
theorem expression_sound {levels : Nat} {s : State} (quiet : s.Quiet)
    (silent : (expression levels s).2.reports = []) :
    ∃ ts, Expression maxOperators levels ts (expression levels s).1 ∧
      s.Reads ts (expression levels s).2 := by
  rw [expression_eq] at silent ⊢
  have read := State.reports_eq_nil (State.reportCondition_grows _ _ _) silent
  obtain ⟨k, ts, ⟨n, rfl, phrase⟩, reads, count⟩ :=
    (deeper_sound levels).group _ (quiet.with_operators (Nat.zero_le _)) read
  obtain ⟨integer, same⟩ := reads.quiet.reportCondition_eq silent
  have le : k ≤ maxOperators := by
    have := reads.quiet.operators
    rwa [count, Nat.zero_add] at this
  rw [same]
  exact ⟨ts, .whole phrase le integer, reads.upcoming, reads.quiet⟩

/-- A condition that is read without a report is one of the grammar, within the limit on
operators. -/
theorem condition_sound {levels : Nat} {s : State} (quiet : s.Quiet)
    (silent : (condition levels s).2.reports = []) :
    ∃ ts, Condition maxOperators levels ts (condition levels s).1 ∧
      s.Reads ts (condition levels s).2 := by
  obtain ⟨k, ts, ⟨n, rfl, phrase⟩, reads, count⟩ :=
    (deeper_sound levels).group _ (quiet.with_operators (Nat.zero_le _)) silent
  have le : k ≤ maxOperators := by
    have := reads.quiet.operators
    rwa [count, Nat.zero_add] at this
  exact ⟨ts, .whole phrase le, reads.upcoming, reads.quiet⟩

/-! ## Statements -/

/-- From a quiet state the parser reports something, or it reads a statement.  If the
statement could take an `else`, then none follows. -/
def StatementSound (p : Parser) (levels : Nat) : Prop :=
  ∀ s, s.Quiet → (p s).2.reports = [] →
    ∃ ts, Statement maxOperators levels ts (p s).1 ∧ s.Reads ts (p s).2 ∧
      ((p s).1.endsOpen = true → (p s).2.current.kind ≠ .otherwise)

/-- An assignment that is read without a report is one of the grammar. -/
theorem assignment_sound {levels : Nat} {s : State} (quiet : s.Quiet)
    (kind : s.current.kind = .name) (silent : (assignment levels s).2.reports = []) :
    ∃ ts, Statement maxOperators (levels + 1) ts (assignment levels s).1 ∧
      s.Reads ts (assignment levels s).2 := by
  have valued := State.reports_eq_nil (State.expect_grows _ _ _) silent
  have signed := State.reports_eq_nil (expression_grows levels _) valued
  have named := State.reports_eq_nil (State.expect_grows _ _ _) signed
  have readsName := quiet.advance_reads (by simp [kind]) named
  obtain ⟨sign, readsSign⟩ := readsName.quiet.expect_reads (by simp) signed
  obtain ⟨ts, value, readsValue⟩ := expression_sound readsSign.quiet valued
  obtain ⟨stop, readsStop⟩ := readsValue.quiet.expect_reads (by simp) silent
  exact ⟨_, .assign kind sign value stop,
    ((readsName.trans readsSign).trans readsValue).trans readsStop⟩

/-- An output that is read without a report is one of the grammar. -/
theorem output_sound {levels : Nat} {s : State} (quiet : s.Quiet)
    (kind : s.current.kind = .out) (silent : (output levels s).2.reports = []) :
    ∃ ts, Statement maxOperators (levels + 1) ts (output levels s).1 ∧
      s.Reads ts (output levels s).2 := by
  have valued := State.reports_eq_nil (State.expect_grows _ _ _) silent
  have begun := State.reports_eq_nil (expression_grows levels _) valued
  have readsWord := quiet.advance_reads (by simp [kind]) begun
  obtain ⟨ts, value, readsValue⟩ := expression_sound readsWord.quiet valued
  obtain ⟨stop, readsStop⟩ := readsValue.quiet.expect_reads (by simp) silent
  exact ⟨_, .out kind value stop, (readsWord.trans readsValue).trans readsStop⟩

/-- What a conditional and a loop read before their bodies is a condition in parentheses. -/
theorem guardOf_sound {kind : Guarded} {levels : Nat} {s : State} (quiet : s.Quiet)
    (inside : s.current.kind ≠ .endOfInput) (silent : (guardOf kind levels s).2.reports = []) :
    ∃ l cs r, l.kind = .openParen ∧ Condition maxOperators levels cs (guardOf kind levels s).1 ∧
      r.kind = .closeParen ∧ s.Reads (s.current :: l :: cs ++ [r]) (guardOf kind levels s).2 := by
  have tested := State.reports_eq_nil (State.expect_grows _ _ _) silent
  have opened := State.reports_eq_nil (condition_grows levels _) tested
  have begun := State.reports_eq_nil (State.expect_grows _ _ _) opened
  have readsWord := quiet.advance_reads inside begun
  obtain ⟨l, readsOpen⟩ := readsWord.quiet.expect_reads (by simp) opened
  obtain ⟨cs, test, readsTest⟩ := condition_sound readsOpen.quiet tested
  obtain ⟨r, readsClose⟩ := readsTest.quiet.expect_reads (by simp) silent
  exact ⟨_, cs, _, l, test, r, ((readsWord.trans readsOpen).trans readsTest).trans readsClose⟩

/-- A conditional that is read without a report is one of the grammar, with two branches if an
`else` follows the first, and else with one. -/
theorem conditional_sound {levels : Nat} {inner : Parser} (sound : StatementSound inner levels)
    (grows : inner.Grows) {s : State} (quiet : s.Quiet) (kind : s.current.kind = .when)
    (silent : (conditional levels inner s).2.reports = []) :
    ∃ ts, Statement maxOperators (levels + 1) ts (conditional levels inner s).1 ∧
      s.Reads ts (conditional levels inner s).2 ∧
      ((conditional levels inner s).1.endsOpen = true →
        (conditional levels inner s).2.current.kind ≠ .otherwise) := by
  rw [conditional] at silent ⊢
  dsimp only at silent ⊢
  split at silent
  · rename_i other
    rw [if_pos other]
    dsimp only at silent ⊢
    have passed := State.reports_eq_nil (grows _) silent
    have branched := State.reports_eq_nil (State.advance_grows _) passed
    have guarded := State.reports_eq_nil (grows _) branched
    obtain ⟨l, cs, r, hl, test, hr, readsGuard⟩ := guardOf_sound quiet (by simp [kind]) guarded
    obtain ⟨ts, thenBranch, readsThen, nearest⟩ := sound _ readsGuard.quiet branched
    have closed := Bool.eq_false_iff.mpr fun isOpen => nearest isOpen other
    have readsWord := readsThen.quiet.advance_reads (by simp [other]) passed
    obtain ⟨us, elseBranch, readsElse, nearest'⟩ := sound _ readsWord.quiet silent
    refine ⟨_, .whenElse kind hl test hr thenBranch closed other elseBranch, ?_, ?_⟩
    · simpa using ((readsGuard.trans readsThen).trans readsWord).trans readsElse
    · simpa only [Node.endsOpen] using nearest'
  · rename_i other
    rw [if_neg other]
    dsimp only at silent ⊢
    have guarded := State.reports_eq_nil (grows _) silent
    obtain ⟨l, cs, r, hl, test, hr, readsGuard⟩ := guardOf_sound quiet (by simp [kind]) guarded
    obtain ⟨ts, thenBranch, readsThen, -⟩ := sound _ readsGuard.quiet silent
    refine ⟨_, .when kind hl test hr thenBranch, ?_, fun _ => other⟩
    simpa using readsGuard.trans readsThen

/-- A loop that is read without a report is one of the grammar. -/
theorem repetition_sound {levels : Nat} {inner : Parser} (sound : StatementSound inner levels)
    (grows : inner.Grows) {s : State} (quiet : s.Quiet) (kind : s.current.kind = .loop)
    (silent : (repetition levels inner s).2.reports = []) :
    ∃ ts, Statement maxOperators (levels + 1) ts (repetition levels inner s).1 ∧
      s.Reads ts (repetition levels inner s).2 ∧
      ((repetition levels inner s).1.endsOpen = true →
        (repetition levels inner s).2.current.kind ≠ .otherwise) := by
  have guarded := State.reports_eq_nil (grows _) silent
  obtain ⟨l, cs, r, hl, test, hr, readsGuard⟩ := guardOf_sound quiet (by simp [kind]) guarded
  obtain ⟨ts, body, readsBody, nearest⟩ := sound _ readsGuard.quiet silent
  refine ⟨_, .loop kind hl test hr body, ?_, ?_⟩
  · simpa [repetition] using readsGuard.trans readsBody
  · simpa only [repetition, Node.endsOpen] using nearest

/-! ## Lists of statements -/

/-- Without a report there is nothing to recover from. -/
theorem recovering_eq {p : Parser} {levels : Nat} (sound : StatementSound p levels) {s : State}
    (quiet : s.Quiet) (silent : (recovering p s).2.reports = []) :
    recovering p s = p s ∧ (p s).2.reports = [] := by
  have read : (p s).2.reports = [] := by
    rw [recovering] at silent
    dsimp only at silent
    split at silent
    · exact State.reports_eq_nil (State.recover_grows _) silent
    · exact silent
  obtain ⟨ts, _, reads, _⟩ := sound s quiet read
  refine ⟨?_, read⟩
  rw [recovering]
  dsimp only
  rw [reads.quiet.panicking]
  rfl

/-- A list that is read without a report is statements of the grammar.  With a bound that allows for
all items it ends only where it has to. -/
theorem statementList_sound {stop : TokenKind → Bool} {p : Parser} {levels : Nat}
    (sound : StatementSound p levels) (grows : p.Grows) :
    ∀ (most : Nat) {s : State}, s.Quiet → (statementList stop p most s).2.reports = [] →
      ∃ ts, Statements maxOperators levels ts (statementList stop p most s).1 ∧
        s.Reads ts (statementList stop p most s).2 ∧
        (s.upcoming.length ≤ most → (statementList stop p most s).2.atEnd = true ∨
          stop (statementList stop p most s).2.current.kind = true)
  | 0, s, quiet, silent => by
      refine ⟨[], .nil, quiet.reads_nil, fun le => .inl ?_⟩
      have empty := List.length_eq_zero_iff.mp (Nat.le_zero.mp le)
      simp [statementList, State.atEnd, State.current, empty, quiet.finish]
  | most + 1, s, quiet, silent => by
      rw [statementList] at silent ⊢
      split at silent
      · rename_i stops
        rw [if_pos stops]
        exact ⟨[], .nil, quiet.reads_nil, fun _ => by simpa using stops⟩
      · rename_i goesOn
        rw [if_neg goesOn]
        dsimp only at silent ⊢
        have first := State.reports_eq_nil (statementList_grows grows most _) silent
        obtain ⟨same, read⟩ := recovering_eq sound quiet first
        rw [same] at silent ⊢
        obtain ⟨ts, statement, reads, -⟩ := sound s quiet read
        obtain ⟨us, rest, readsRest, last⟩ :=
          statementList_sound sound grows most reads.quiet silent
        refine ⟨ts ++ us, .cons statement rest, reads.trans readsRest, fun le => last ?_⟩
        -- A statement has a token, so what is left is shorter.
        obtain ⟨t, ts, rfl, -⟩ := statement.head
        have shorter := congrArg List.length reads.upcoming
        simp only [List.map_cons, List.cons_append, List.length_cons, List.length_append] at shorter
        omega

/-- A block that is read without a report is one of the grammar, and its brace closes it. -/
theorem block_sound {most levels : Nat} {inner : Parser} (sound : StatementSound inner levels)
    (grows : inner.Grows) {s : State} (quiet : s.Quiet) (kind : s.current.kind = .openBrace)
    (silent : (block most inner s).2.reports = []) :
    ∃ ts, Statement maxOperators (levels + 1) ts (block most inner s).1 ∧
      s.Reads ts (block most inner s).2 := by
  have listed := State.reports_eq_nil (State.expect_grows _ _ _) silent
  have opened := State.reports_eq_nil (statementList_grows grows most _) listed
  have readsOpen := quiet.advance_reads (by simp [kind]) opened
  obtain ⟨ts, nodes, readsList, -⟩ := statementList_sound sound grows most readsOpen.quiet listed
  obtain ⟨close, readsClose⟩ := readsList.quiet.expect_reads (by simp) silent
  exact ⟨_, .block kind nodes close, (readsOpen.trans readsList).trans readsClose⟩

/-- A statement of whatever kind that is read without a report is one of the grammar, if the
statements in it are. -/
theorem statementByKind_sound {most levels : Nat} {inner : Parser}
    (sound : StatementSound inner levels) (grows : inner.Grows) :
    StatementSound (statementByKind most levels inner) (levels + 1) := by
  intro s quiet
  rw [statementByKind]
  split
  · exact conditional_sound sound grows quiet ‹_›
  · exact repetition_sound sound grows quiet ‹_›
  · intro silent
    obtain ⟨ts, statement, reads⟩ := output_sound quiet ‹_› silent
    exact ⟨ts, statement, reads, by simp [output, Node.endsOpen]⟩
  · intro silent
    obtain ⟨ts, statement, reads⟩ := block_sound sound grows quiet ‹_› silent
    exact ⟨ts, statement, reads, by simp [block, Node.endsOpen]⟩
  · intro silent
    obtain ⟨ts, statement, reads⟩ := assignment_sound quiet ‹_› silent
    exact ⟨ts, statement, reads, by simp [assignment, Node.endsOpen]⟩
  · exact fun silent => absurd silent (quiet.advance_report_ne_nil _)

/-- A statement that is read without a report is one of the grammar.  The induction is on the levels
that may be opened. -/
theorem statement_sound (most : Nat) : ∀ levels : Nat, StatementSound (statement most levels) levels
  | 0 => fun _ quiet silent => absurd silent (quiet.abort_ne_nil _)
  | levels + 1 => by
      intro s quiet silent
      have grows := statement_grows most levels
      obtain ⟨ts, derives, reads, nearest⟩ :=
        statementByKind_sound (statement_sound most levels) grows _
          (quiet.with_depth (s.depth + 1)) silent
      exact ⟨ts, derives, ⟨reads.upcoming, reads.quiet.with_depth _⟩, nearest⟩

/-- Reading a program without a report reads all of it, and it derives from the grammar. -/
theorem program_sound {s : State} (quiet : s.Quiet) (silent : (program s).2.reports = []) :
    ∃ ts, s.upcoming = ts.map .token ∧
      Statements maxOperators maxNesting ts (program s).1 := by
  obtain ⟨ts, derives, reads, last⟩ :=
    statementList_sound (statement_sound _ _) (statement_grows _ _) _ quiet silent
  have atEnd : (program s).2.atEnd = true := by simpa [program] using last (Nat.le_refl _)
  have empty := reads.quiet.upcoming_of_atEnd atEnd
  exact ⟨ts, by rw [reads.upcoming, empty, List.append_nil], derives⟩

end WhenLoop
