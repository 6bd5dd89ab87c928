import WhenLoop.Proofs.Soundness

/-!
# What derives from the grammar is read without a report

The converse of soundness.  The induction is on the derivation, and what a parser does is
followed forwards over tokens that are known (`State.At`).

A parser goes on as long as the next token lets it, so a phrase is read as a whole only if
the token behind it would not go on with it.  Operators have a strength for this, from one
for `or` to five for `*`, and a phrase ends where the next token is not strong enough
(`Stops`).  In the same way a statement that could take an `else` is read as a whole only if
no `else` is behind it.

The rules for chains are left recursive, but a chain is read from its left end.  The two meet
in `Rung.Links`: reading a chain amounts to going on with the tree of a phrase that
starts it.  This holds for every phrase of the chain's rank, and the induction goes from
each to the next longer one.
-/

namespace WhenLoop

open Grammar

/-! ## Where a phrase ends -/

/-- How tightly an operator binds.  It is zero for a token that is no binary operator. -/
def TokenKind.strength : TokenKind → Nat
  | .or => 1
  | .and => 2
  | .assign | .equal | .less | .lessEqual | .greater | .greaterEqual => 3
  | .plus | .minus => 4
  | .star | .slash | .percent => 5
  | _ => 0

/-- The next token is weaker than `strength`. -/
def Stops (strength : Nat) (rest : List Token) : Prop :=
  ∀ t us, rest = t :: us → t.kind.strength < strength

/-- What is weaker than a strength is weaker than a greater one. -/
theorem Stops.mono {strength more : Nat} {rest : List Token} (h : Stops strength rest)
    (le : strength ≤ more) : Stops more rest :=
  fun t us same => Nat.lt_of_lt_of_le (h t us same) le

theorem stops_cons {strength : Nat} {t : Token} {us : List Token}
    (h : t.kind.strength < strength) : Stops strength (t :: us) := by
  intro t' us' same
  cases same
  exact h

/-- The current token at the end of a phrase is weak. -/
theorem State.At.strength_lt {s : State} {rest : List Token} {strength : Nat} (h : s.At rest)
    (stops : Stops strength rest) (pos : 0 < strength) : s.current.kind.strength < strength := by
  cases rest with
  | nil => rw [h.current_nil]; exact pos
  | cons t us => rw [h.current]; exact stops t us rfl

namespace State.At

variable {s : State} {ts : List Token}

theorem with_depth (h : s.At ts) (depth : Nat) : { s with depth := depth }.At ts :=
  ⟨h.quiet.with_depth depth, h.upcoming⟩

theorem with_operators (h : s.At ts) {operators : Nat} (le : operators ≤ maxOperators) :
    { s with operators := operators }.At ts :=
  ⟨h.quiet.with_operators le, h.upcoming⟩

end State.At

/-! ## Parsers that read a phrase -/

namespace Parser

/-- The parser reads the tokens `ts` with `k` operators and gives `node`, if the token behind
them is weaker than `strength`. -/
def Reaches (p : Parser) (strength k : Nat) (ts : List Token) (node : Node) : Prop :=
  ∀ ⦃s : State⦄ ⦃rest : List Token⦄, s.At (ts ++ rest) → s.operators + k ≤ maxOperators →
    Stops strength rest →
    ∃ s', p s = (node, s') ∧ s'.At rest ∧ s'.operators = s.operators + k

/-- What a parser reads it also reads inside one more level. -/
theorem Reaches.nested {p : Parser} {strength k : Nat} {ts : List Token} {node : Node}
    (h : p.Reaches strength k ts node) : p.nested.Reaches strength k ts node := by
  intro s rest here count stops
  obtain ⟨s', same, there, total⟩ := h (here.with_depth (s.depth + 1)) count stops
  refine ⟨{ s' with depth := s'.depth - 1 }, ?_, there.with_depth _, total⟩
  rw [Parser.nested, same]

/-- An operator that is within the limit is counted, and the parse goes on behind it. -/
theorem counted_of_le {p : Parser} {node : Node} {s : State}
    (le : s.operators + 1 ≤ maxOperators) :
    p.counted node s = p { s with operators := s.operators + 1 } := if_pos le

end Parser

/-! ## Chains -/

namespace Rung

/-- The operators of the rung are those of the given strength. -/
def HasStrength (rung : Rung) (strength : Nat) : Prop :=
  ∀ kind : TokenKind, (rung.join? kind).isSome = (kind.strength == strength)

/-- A weaker token is no operator of the rung. -/
theorem HasStrength.join?_eq_none {rung : Rung} {strength : Nat} (h : rung.HasStrength strength)
    {kind : TokenKind} (weak : kind.strength < strength) : rung.join? kind = none := by
  have none := h kind
  rwa [beq_false_of_ne (Nat.ne_of_lt weak), Option.isSome_eq_false_iff,
    Option.isNone_iff_eq_none] at none

/-- The operators of a rung all have its strength. -/
theorem HasStrength.of_join? {rung : Rung} {strength : Nat} (h : rung.HasStrength strength)
    {kind : TokenKind} {join : Node → Node → Node} (joins : rung.join? kind = some join) :
    kind.strength = strength := by
  have some := h kind
  rw [joins] at some
  exact eq_of_beq some.symm

section Chain

variable {rung : Rung} {operand : Parser} {strength k : Nat} {rs : List Token} {right : Node}

/-- An operand of the right kind is not reported. -/
theorem checkOperand_of_integer {node : Node}
    (h : rung.integers = true → node.isCondition = false) (s : State) :
    rung.checkOperand s node = s := by
  rw [checkOperand]
  split
  · exact State.reportCondition_of_not (h ‹_›) s _
  · rfl

/-- A chain goes on over one operator and one operand. -/
theorem chain_next {op : Token} {join : Node → Node → Node} {left : Node}
    (reaches : operand.Reaches strength k rs right) (joins : rung.join? op.kind = some join)
    (integers : rung.integers = true → left.isCondition = false ∧ right.isCondition = false)
    {s : State} {rest : List Token} (here : s.At (op :: rs ++ rest))
    (count : s.operators + 1 + k ≤ maxOperators) (stops : Stops strength rest) (most : Nat) :
    ∃ s', rung.chain operand (most + 1) left s = rung.chain operand most (join left right) s' ∧
      s'.At rest ∧ s'.operators = s.operators + 1 + k := by
  have current : rung.join? s.current.kind = some join := by rw [here.current, joins]
  have first : s.advance.operators + 1 ≤ maxOperators := by
    rw [State.advance_operators]
    omega
  have behind := (here.advance).with_operators first
  have total : s.advance.operators + 1 + k ≤ maxOperators := by rwa [State.advance_operators]
  obtain ⟨s', same, there, sum⟩ := reaches behind total stops
  refine ⟨s', ?_, there, by rw [sum, State.advance_operators]⟩
  rw [chain_of_some current, Parser.counted_of_le first]
  simp only [link, checkOperand_of_integer fun i => (integers i).1, same,
    checkOperand_of_integer fun i => (integers i).2]

/-- Reading a chain that starts with the tokens `ts` amounts to going on with `node`. -/
def Links (rung : Rung) (operand : Parser) (strength k : Nat) (ts : List Token)
    (node : Node) : Prop :=
  ∀ ⦃s : State⦄ ⦃rest : List Token⦄, s.At (ts ++ rest) → s.operators + k ≤ maxOperators →
    Stops strength rest →
    ∃ s' links, links ≤ k ∧
      rung.many operand s = rung.chain operand (maxOperators + 1 - links) node s' ∧
      s'.At rest ∧ s'.operators = s.operators + k

/-- A chain may be its first operand alone. -/
theorem Links.one (h : operand.Reaches strength k rs right) :
    rung.Links operand strength k rs right := by
  intro s rest here count stops
  obtain ⟨s', same, there, total⟩ := h here count stops
  refine ⟨s', 0, Nat.zero_le k, ?_, there, total⟩
  rw [many, same, Nat.sub_zero]

/-- A chain goes on over an operator of its rung, if its operands are of the right kind. -/
theorem Links.more {j : Nat} {op : Token} {join : Node → Node → Node} {ls : List Token}
    {left : Node} (strong : rung.HasStrength strength)
    (hl : rung.Links operand (strength + 1) j ls left) (joins : rung.join? op.kind = some join)
    (hr : operand.Reaches (strength + 1) k rs right)
    (integers : rung.integers = true → left.isCondition = false ∧ right.isCondition = false) :
    rung.Links operand (strength + 1) (j + 1 + k) (ls ++ op :: rs) (join left right) := by
  intro s rest here count stops
  rw [List.append_assoc] at here
  have weak : op.kind.strength < strength + 1 := by
    rw [strong.of_join? joins]
    exact Nat.lt_succ_self strength
  obtain ⟨s', links, le, same, there, total⟩ := hl here (by omega) (stops_cons weak)
  have room : maxOperators + 1 - links = maxOperators + 1 - (links + 1) + 1 := by omega
  obtain ⟨s'', next, behind, sum⟩ :=
    chain_next hr joins integers there (by omega) stops (maxOperators + 1 - (links + 1))
  refine ⟨s'', links + 1, by omega, ?_, behind, by omega⟩
  rw [same, room, next]

/-- A chain ends where no operator of its rung follows. -/
theorem Links.reaches {ts : List Token} {node : Node} (strong : rung.HasStrength strength)
    (pos : 0 < strength) (h : rung.Links operand (strength + 1) k ts node) :
    (rung.many operand).Reaches strength k ts node := by
  intro s rest here count stops
  obtain ⟨s', links, -, same, there, total⟩ := h here count (stops.mono (Nat.le_succ strength))
  refine ⟨s', ?_, there, total⟩
  rw [same, chain_of_none (strong.join?_eq_none (there.strength_lt stops pos))]

end Chain

theorem disjunction_strength : disjunction.HasStrength 1 := by
  intro kind
  cases kind <;> rfl

theorem conjunction_strength : conjunction.HasStrength 2 := by
  intro kind
  cases kind <;> rfl

theorem comparison_strength : comparison.HasStrength 3 := by
  intro kind
  cases kind <;> rfl

theorem sum_strength : sum.HasStrength 4 := by
  intro kind
  cases kind <;> rfl

theorem product_strength : product.HasStrength 5 := by
  intro kind
  cases kind <;> rfl

theorem disjunction_join? {kind : TokenKind} (h : kind = .or) :
    disjunction.join? kind = some fun left right => .or left.asCondition right.asCondition := by
  subst h
  rfl

theorem conjunction_join? {kind : TokenKind} (h : kind = .and) :
    conjunction.join? kind = some fun left right => .and left.asCondition right.asCondition := by
  subst h
  rfl

/-- The signs of the grammar's comparisons are the operators of the rung. -/
theorem comparison_join? {kind : TokenKind} {sign : CompareOp}
    (h : (kind, sign) ∈ comparisonSigns) : comparison.join? kind = some (.compare sign) := by
  simp only [comparisonSigns, List.mem_cons, Prod.mk.injEq, List.not_mem_nil, or_false] at h
  rcases h with ⟨rfl, rfl⟩ | ⟨rfl, rfl⟩ | ⟨rfl, rfl⟩ | ⟨rfl, rfl⟩ | ⟨rfl, rfl⟩ | ⟨rfl, rfl⟩ <;> rfl

theorem sum_join? {kind : TokenKind} {sign : ArithOp} (h : (kind, sign) ∈ termSigns) :
    sum.join? kind = some (.arith sign) := by
  simp only [termSigns, List.mem_cons, Prod.mk.injEq, List.not_mem_nil, or_false] at h
  rcases h with ⟨rfl, rfl⟩ | ⟨rfl, rfl⟩ <;> rfl

theorem product_join? {kind : TokenKind} {sign : ArithOp} (h : (kind, sign) ∈ factorSigns) :
    product.join? kind = some (.arith sign) := by
  simp only [factorSigns, List.mem_cons, Prod.mk.injEq, List.not_mem_nil, or_false] at h
  rcases h with ⟨rfl, rfl⟩ | ⟨rfl, rfl⟩ | ⟨rfl, rfl⟩ <;> rfl

/-- A comparison reads one term, or two with a sign between them. -/
theorem comparison_once_reaches {operand : Parser} {j k : Nat} {op : Token}
    {join : Node → Node → Node} {ls rs : List Token} {left right : Node}
    (hl : operand.Reaches 4 j ls left) (joins : comparison.join? op.kind = some join)
    (hr : operand.Reaches 4 k rs right)
    (il : left.isCondition = false) (ir : right.isCondition = false) :
    (comparison.once operand).Reaches 3 (j + 1 + k) (ls ++ op :: rs) (join left right) := by
  intro s rest here count stops
  rw [List.append_assoc] at here
  have weak : op.kind.strength < 4 := by
    rw [comparison_strength.of_join? joins]
    exact Nat.lt_succ_self 3
  obtain ⟨s', same, there, total⟩ := hl here (by omega) (stops_cons weak)
  obtain ⟨s'', next, behind, sum⟩ :=
    chain_next hr joins (fun _ => ⟨il, ir⟩) there (by omega) (stops.mono (Nat.le_succ 3)) 0
  refine ⟨s'', ?_, behind, by omega⟩
  rw [once, same]
  exact next

/-- What stands on one side of a comparison may stand alone. -/
theorem comparison_once_of_term {operand : Parser} {k : Nat} {ts : List Token} {node : Node}
    (h : operand.Reaches 4 k ts node) : (comparison.once operand).Reaches 3 k ts node := by
  intro s rest here count stops
  obtain ⟨s', same, there, total⟩ := h here count (stops.mono (Nat.le_succ 3))
  refine ⟨s', ?_, there, total⟩
  rw [once, same]
  exact chain_of_none (comparison_strength.join?_eq_none
    (there.strength_lt stops (Nat.succ_pos 2))) operand 1 node

end Rung

/-! ## The ladder -/

/-- A literal up to the greatest integer has its value. -/
theorem literal?_of_le {digits : List Char} {value : Nat}
    (same : Nat.ofDigitChars 10 digits 0 = value) (le : value ≤ 2147483647) :
    literal? digits = some (Int32.ofNat value) := by
  subst same
  exact if_pos le

/-- What the parsers do with a phrase of the given rank. -/
def Grammar.Rank.Complete (levels k : Nat) (ts : List Token) (node : Node) : Rank → Prop
  | .primary => (deeper levels).primary.Reaches 6 k ts node
  | .unary => (deeper levels).signed.Reaches 6 k ts node
  | .factor => Rung.product.Links (deeper levels).signed 6 k ts node
  | .term => Rung.sum.Links (Rung.product.many (deeper levels).signed) 5 k ts node
  | .comparison => (deeper levels).comparison.Reaches 3 k ts node
  | .not => (deeper levels).negated.Reaches 3 k ts node
  | .and => Rung.conjunction.Links (deeper levels).negated 3 k ts node
  | .or => Rung.disjunction.Links (Rung.conjunction.many (deeper levels).negated) 2 k ts node

/-- A prefix operator is counted, and the parse goes on one level deeper. -/
theorem prefixed_reaches {p : Parser} {k strength : Nat} {op : Token} {ts : List Token}
    {node : Node} (h : p.Reaches strength k ts node) {s : State} {rest : List Token}
    (here : s.At (op :: ts ++ rest)) (count : s.operators + (k + 1) ≤ maxOperators)
    (stops : Stops strength rest) :
    ∃ s', p.counted (.num 0) s.advance = (node, s') ∧ s'.At rest ∧
      s'.operators = s.operators + (k + 1) := by
  have first : s.advance.operators + 1 ≤ maxOperators := by
    rw [State.advance_operators]
    omega
  have behind := (here.advance).with_operators first
  have total : s.advance.operators + 1 + k ≤ maxOperators := by
    rw [State.advance_operators]
    omega
  obtain ⟨s', same, there, sum⟩ := h behind total stops
  refine ⟨s', by rw [Parser.counted_of_le first, same], there, ?_⟩
  rw [sum, State.advance_operators, Nat.add_assoc, Nat.add_comm 1 k]

namespace Deeper

variable {d : Deeper} {k : Nat} {ts : List Token} {node : Node}

/-- A group is read up to its parenthesis, at which every phrase ends. -/
theorem primary_of_group {l r : Token} (opens : l.kind = .openParen)
    (closes : r.kind = .closeParen) (h : d.group.Reaches 1 k ts node) :
    d.primary.Reaches 6 k (l :: ts ++ [r]) node := by
  intro s rest here count stops
  simp only [List.cons_append, List.append_assoc, List.nil_append] at here
  have total : s.advance.operators + k ≤ maxOperators := by rwa [State.advance_operators]
  have weak : Stops 1 (r :: rest) := stops_cons (by simp [closes, TokenKind.strength])
  obtain ⟨s', same, there, sum⟩ := h here.advance total weak
  refine ⟨s'.expect .closeParen .expectedGroupEnd, ?_, there.expect closes _, ?_⟩
  · rw [primary, here.current, opens]
    simp only [same]
  · rw [State.expect_operators, sum, State.advance_operators]

/-- Without a sign an operand is read as it stands. -/
theorem signed_of_primary (h : d.primary.Reaches 6 k ts node)
    (unsigned : ∃ t us, ts = t :: us ∧ t.kind ≠ .minus) : d.signed.Reaches 6 k ts node := by
  intro s rest here count stops
  obtain ⟨t, us, rfl, other⟩ := unsigned
  obtain ⟨s', same, there, total⟩ := h here count stops
  refine ⟨s', ?_, there, total⟩
  rw [signed, here.current, if_neg other, same]

/-- With a sign it is read one level deeper. -/
theorem signed_of_negative {op : Token} (sign : op.kind = .minus)
    (h : d.negative.Reaches 6 k ts node) : d.signed.Reaches 6 (k + 1) (op :: ts) node := by
  intro s rest here count stops
  obtain ⟨s', same, there, total⟩ := prefixed_reaches h here count stops
  refine ⟨s', ?_, there, total⟩
  rw [signed, if_pos (by rw [here.current, sign]), same]

/-- Without a `not` a comparison is read as it stands. -/
theorem negated_of_comparison (h : d.comparison.Reaches 3 k ts node)
    (plain : ∃ t us, ts = t :: us ∧ t.kind ≠ .not) : d.negated.Reaches 3 k ts node := by
  intro s rest here count stops
  obtain ⟨t, us, rfl, other⟩ := plain
  obtain ⟨s', same, there, total⟩ := h here count stops
  refine ⟨s', ?_, there, total⟩
  rw [negated, here.current, if_neg other, same]

/-- With a `not` it is read one level deeper. -/
theorem negated_of_negation {op : Token} (sign : op.kind = .not)
    (h : d.negation.Reaches 3 k ts node) : d.negated.Reaches 3 (k + 1) (op :: ts) node := by
  intro s rest here count stops
  obtain ⟨s', same, there, total⟩ := prefixed_reaches h here count stops
  refine ⟨s', ?_, there, total⟩
  rw [negated, if_pos (by rw [here.current, sign]), same]

end Deeper

/-- Every phrase of the ladder is read, with its tree and its count of operators.  The induction is
on the derivation, with one case for each rule. -/
theorem Grammar.Phrase.complete {rank : Rank} {levels k : Nat} {ts : List Token} {node : Node}
    (h : Phrase rank levels k ts node) : rank.Complete levels k ts node := by
  induction h with
  | number kind same le =>
      intro s rest here count stops
      refine ⟨s.advance, ?_, here.advance, s.advance_operators⟩
      rw [Deeper.primary, here.current, kind]
      simp only [literal?_of_le same le]
  | name kind =>
      intro s rest here count stops
      refine ⟨s.advance, ?_, here.advance, s.advance_operators⟩
      rw [Deeper.primary, here.current, kind]
  | group opens inner closes ih =>
      have whole := Rung.Links.reaches Rung.disjunction_strength Nat.one_pos ih
      exact Deeper.primary_of_group opens closes whole.nested
  | ofPrimary inner ih =>
      obtain ⟨t, us, rfl, start⟩ := inner.head
      refine Deeper.signed_of_primary ih ⟨t, us, rfl, ?_⟩
      rintro kind
      simp [kind, Rank.starts] at start
  | negative sign inner integer ih =>
      refine Deeper.signed_of_negative sign fun s rest here count stops => ?_
      obtain ⟨s', same, there, total⟩ := (Parser.Reaches.nested ih) here count stops
      refine ⟨s', ?_, there, total⟩
      rw [deeper, Deeper.next_negative, same, State.reportCondition_of_not integer]
  | ofUnary inner ih => exact Rung.Links.one ih
  | product hl sign hr il ir ihl ihr =>
      have joins := Rung.product_join? sign
      exact Rung.Links.more Rung.product_strength ihl joins ihr fun _ => ⟨il, ir⟩
  | ofFactor inner ih =>
      exact Rung.Links.one (Rung.Links.reaches Rung.product_strength (Nat.succ_pos 4) ih)
  | sum hl sign hr il ir ihl ihr =>
      have joins := Rung.sum_join? sign
      have factor := Rung.Links.reaches Rung.product_strength (Nat.succ_pos 4) ihr
      exact Rung.Links.more Rung.sum_strength ihl joins factor fun _ => ⟨il, ir⟩
  | ofTerm inner ih =>
      exact Rung.comparison_once_of_term
        (Rung.Links.reaches Rung.sum_strength (Nat.succ_pos 3) ih)
  | compare hl sign hr il ir ihl ihr =>
      have left := Rung.Links.reaches Rung.sum_strength (Nat.succ_pos 3) ihl
      have right := Rung.Links.reaches Rung.sum_strength (Nat.succ_pos 3) ihr
      exact Rung.comparison_once_reaches left (Rung.comparison_join? sign) right il ir
  | ofComparison inner ih =>
      obtain ⟨t, us, rfl, start⟩ := inner.head
      refine Deeper.negated_of_comparison ih ⟨t, us, rfl, ?_⟩
      rintro kind
      simp [kind, Rank.starts] at start
  | negation sign inner ih =>
      refine Deeper.negated_of_negation sign fun s rest here count stops => ?_
      obtain ⟨s', same, there, total⟩ := (Parser.Reaches.nested ih) here count stops
      refine ⟨s', ?_, there, total⟩
      rw [deeper, Deeper.next_negation, same]
  | ofNot inner ih => exact Rung.Links.one ih
  | conjunction hl kind hr ihl ihr =>
      have joins := Rung.conjunction_join? kind
      have linked := Rung.Links.more Rung.conjunction_strength ihl joins ihr fun integers =>
        absurd integers Bool.false_ne_true
      exact linked
  | ofAnd inner ih =>
      exact Rung.Links.one (Rung.Links.reaches Rung.conjunction_strength Nat.two_pos ih)
  | disjunction hl kind hr ihl ihr =>
      have joins := Rung.disjunction_join? kind
      have right := Rung.Links.reaches Rung.conjunction_strength Nat.two_pos ihr
      have linked := Rung.Links.more Rung.disjunction_strength ihl joins right fun integers =>
        absurd integers Bool.false_ne_true
      exact linked

/-- A whole phrase is read inside a group. -/
theorem Grammar.Phrase.group_reaches {levels k : Nat} {ts : List Token} {node : Node}
    (h : Phrase .or levels k ts node) : (deeper (levels + 1)).group.Reaches 1 k ts node :=
  (Rung.Links.reaches Rung.disjunction_strength Nat.one_pos h.complete).nested

/-- An expression of the grammar is read without a report, if no operator is behind it. -/
theorem Grammar.Expression.complete {levels : Nat} {ts : List Token} {node : Node}
    (h : Expression maxOperators levels ts node) {s : State} {rest : List Token}
    (here : s.At (ts ++ rest)) (stops : Stops 1 rest) :
    ∃ s', expression levels s = (node, s') ∧ s'.At rest := by
  cases h with
  | whole phrase le integer =>
      have start := here.with_operators (Nat.zero_le maxOperators)
      obtain ⟨s', same, there, -⟩ := phrase.group_reaches start (by simpa using le) stops
      refine ⟨s', ?_, there⟩
      rw [expression_eq, same, State.reportCondition_of_not integer]

/-- A condition of the grammar is read without a report, if no operator is behind it. -/
theorem Grammar.Condition.complete {levels : Nat} {ts : List Token} {node : Node}
    (h : Condition maxOperators levels ts node) {s : State} {rest : List Token}
    (here : s.At (ts ++ rest)) (stops : Stops 1 rest) :
    ∃ s', condition levels s = (node, s') ∧ s'.At rest := by
  cases h with
  | whole phrase le =>
      have start := here.with_operators (Nat.zero_le maxOperators)
      obtain ⟨s', same, there, -⟩ := phrase.group_reaches start (by simpa using le) stops
      refine ⟨s', ?_, there⟩
      rw [condition, same]

/-! ## Statements -/

/-- No `else` is next. -/
def NoElse (rest : List Token) : Prop := ∀ t us, rest = t :: us → t.kind ≠ .otherwise

theorem State.At.no_else {s : State} {rest : List Token} (h : s.At rest) (none : NoElse rest) :
    s.current.kind ≠ .otherwise := by
  cases rest with
  | nil => simp [h.current_nil]
  | cons t us =>
      rw [h.current]
      exact none t us rfl

/-- The parser reads the tokens `ts` and gives the statement `node`, if no `else` that the
statement could take is behind them. -/
def Parser.ReadsStatement (p : Parser) (ts : List Token) (node : Node) : Prop :=
  ∀ ⦃s : State⦄ ⦃rest : List Token⦄, s.At (ts ++ rest) → (node.endsOpen = true → NoElse rest) →
    ∃ s', p s = (node, s') ∧ s'.At rest

/-- An assignment is read to its semicolon. -/
theorem assignment_complete {levels : Nat} {target sign stop : Token} {ts : List Token}
    {value : Node} (hs : sign.kind = .assign) (h : Expression maxOperators levels ts value)
    (he : stop.kind = .semicolon) :
    (assignment levels).ReadsStatement (target :: sign :: ts ++ [stop])
      (.assign target.text value) := by
  intro s rest here _
  simp only [List.cons_append, List.append_assoc, List.nil_append] at here
  have weak : Stops 1 (stop :: rest) := stops_cons (by simp [he, TokenKind.strength])
  obtain ⟨s', same, there⟩ := h.complete (here.advance.expect hs .expectedAssign) weak
  refine ⟨_, ?_, there.expect he .expectedSemicolon⟩
  simp only [assignment, same, here.current]

/-- An output is read to its semicolon. -/
theorem output_complete {levels : Nat} {word stop : Token} {ts : List Token} {value : Node}
    (h : Expression maxOperators levels ts value) (he : stop.kind = .semicolon) :
    (output levels).ReadsStatement (word :: ts ++ [stop]) (.out value) := by
  intro s rest here _
  simp only [List.cons_append, List.append_assoc, List.nil_append] at here
  have weak : Stops 1 (stop :: rest) := stops_cons (by simp [he, TokenKind.strength])
  obtain ⟨s', same, there⟩ := h.complete here.advance weak
  refine ⟨_, ?_, there.expect he .expectedSemicolon⟩
  simp only [output, same]

/-- The first word of a statement and the condition behind it are read. -/
theorem guardOf_complete (kind : Guarded) {levels : Nat} {word l r : Token} {cs : List Token}
    {test : Node} (hl : l.kind = .openParen) (h : Condition maxOperators levels cs test)
    (hr : r.kind = .closeParen) {s : State} {rest : List Token}
    (here : s.At (word :: l :: (cs ++ r :: rest))) :
    ∃ s', guardOf kind levels s = (test, s') ∧ s'.At rest := by
  have opened := here.advance.expect hl (.expectedOpenParen kind)
  have weak : Stops 1 (r :: rest) := stops_cons (by simp [hr, TokenKind.strength])
  obtain ⟨s', same, there⟩ := h.complete opened weak
  refine ⟨_, ?_, there.expect hr (.expectedCloseParen kind)⟩
  simp only [guardOf, same]

section Guarded

variable {levels : Nat} {inner : Parser} {word l r : Token} {cs ts : List Token}
  {test branch : Node}

/-- A conditional without an `else` is read, if none is behind it. -/
theorem conditional_complete (hl : l.kind = .openParen)
    (h : Condition maxOperators levels cs test) (hr : r.kind = .closeParen)
    (hb : inner.ReadsStatement ts branch) :
    (conditional levels inner).ReadsStatement (word :: l :: cs ++ r :: ts)
      (.when test branch none) := by
  intro s rest here nearest
  simp only [List.cons_append, List.append_assoc] at here
  have last : NoElse rest := nearest rfl
  obtain ⟨s₁, guarded, here₁⟩ := guardOf_complete .when hl h hr here
  obtain ⟨s₂, branched, here₂⟩ := hb here₁ fun _ => last
  refine ⟨s₂, ?_, here₂⟩
  simp only [conditional, guarded, branched, if_neg (here₂.no_else last)]

/-- A conditional takes the `else` behind its first branch, if no conditional inside that branch
could take it. -/
theorem conditional_complete_else {other : Token} {us : List Token} {elseBranch : Node}
    (hl : l.kind = .openParen) (h : Condition maxOperators levels cs test)
    (hr : r.kind = .closeParen) (hb : inner.ReadsStatement ts branch)
    (closed : branch.endsOpen = false) (ho : other.kind = .otherwise)
    (hb' : inner.ReadsStatement us elseBranch) :
    (conditional levels inner).ReadsStatement (word :: l :: cs ++ r :: ts ++ other :: us)
      (.when test branch (some elseBranch)) := by
  intro s rest here nearest
  simp only [List.cons_append, List.append_assoc] at here
  obtain ⟨s₁, guarded, here₁⟩ := guardOf_complete .when hl h hr here
  obtain ⟨s₂, branched, here₂⟩ := hb here₁ (by simp [closed])
  obtain ⟨s₃, branched', here₃⟩ := hb' here₂.advance nearest
  refine ⟨s₃, ?_, here₃⟩
  have isElse : s₂.current.kind = .otherwise := by rw [here₂.current, ho]
  simp only [conditional, guarded, branched, if_pos isElse, branched']

/-- A loop is read to the end of its body. -/
theorem repetition_complete (hl : l.kind = .openParen)
    (h : Condition maxOperators levels cs test) (hr : r.kind = .closeParen)
    (hb : inner.ReadsStatement ts branch) :
    (repetition levels inner).ReadsStatement (word :: l :: cs ++ r :: ts)
      (.loop test branch) := by
  intro s rest here nearest
  simp only [List.cons_append, List.append_assoc] at here
  obtain ⟨s₁, guarded, here₁⟩ := guardOf_complete .loop hl h hr here
  obtain ⟨s₂, branched, here₂⟩ := hb here₁ nearest
  refine ⟨s₂, ?_, here₂⟩
  simp only [repetition, guarded, branched]

end Guarded

/-! ## Lists of statements -/

/-- A list of at most `bound` statements is read up to a token at which it stops. -/
def ReadsList (p : Parser) (bound : Nat) (ts : List Token) (nodes : List Node) : Prop :=
  ∀ ⦃stop : TokenKind → Bool⦄ ⦃s : State⦄ ⦃rest : List Token⦄, s.At (ts ++ rest) →
    (∀ kind ∈ starts, stop kind = false) → (∀ t us, rest = t :: us → stop t.kind = true) →
    NoElse rest → ∃ s', statementList stop p bound s = (nodes, s') ∧ s'.At rest

/-- A list that stops at once has no statements. -/
theorem readsList_nil (p : Parser) (bound : Nat) : ReadsList p bound [] [] := by
  intro stop s rest here _ stops _
  refine ⟨s, ?_, here⟩
  cases bound with
  | zero => rfl
  | succ bound =>
      have ended : (s.atEnd || stop s.current.kind) = true := by
        cases rest with
        | nil => simp [State.atEnd, here.current_nil]
        | cons t us =>
            rw [here.current, stops t us rfl]
            exact Bool.or_true _
      rw [statementList, if_pos ended]

/-- Without a report there is nothing to recover from. -/
theorem recovering_of_quiet {p : Parser} {s s' : State} {node : Node} (same : p s = (node, s'))
    (quiet : s'.Quiet) : recovering p s = (node, s') := by
  simp [recovering, same, quiet.panicking]

/-- A list is read if its first statement is and the rest of it is.  The statement behind the first
starts with no `else`. -/
theorem readsList_cons {p : Parser} {bound levels : Nat} {ts us : List Token} {node : Node}
    {nodes : List Node} (h : Statement maxOperators levels ts node)
    (first : p.ReadsStatement ts node)
    (h' : Statements maxOperators levels us nodes) (others : ReadsList p bound us nodes) :
    ReadsList p (bound + 1) (ts ++ us) (node :: nodes) := by
  intro stop s rest here goes stops last
  rw [List.append_assoc] at here
  have behind : NoElse (us ++ rest) := by
    cases h' with
    | nil => exact last
    | cons next _ =>
        obtain ⟨t, ts, rfl, start⟩ := next.head
        intro t' _ same other
        cases same
        simp [other, starts] at start
  obtain ⟨s₁, same, here₁⟩ := first here fun _ => behind
  obtain ⟨s₂, same', here₂⟩ := others here₁ goes stops last
  refine ⟨s₂, ?_, here₂⟩
  have goesOn : ¬(s.atEnd || stop s.current.kind) = true := by
    obtain ⟨t, ts, rfl, start⟩ := h.head
    rw [State.atEnd, here.current, goes t.kind start]
    simpa using here.kind_ne (List.mem_cons_self ..)
  rw [statementList, if_neg goesOn]
  simp only [recovering_of_quiet same here₁.quiet, same']

/-- A block is read to its brace. -/
theorem block_complete {most : Nat} {inner : Parser} {l r : Token} {ts : List Token}
    {nodes : List Node} (h : ReadsList inner most ts nodes) (hr : r.kind = .closeBrace) :
    (block most inner).ReadsStatement (l :: ts ++ [r]) (.seq nodes) := by
  intro s rest here _
  simp only [List.cons_append, List.append_assoc, List.nil_append] at here
  have goes : ∀ kind ∈ starts, decide (kind = .closeBrace) = false := by simp [starts]
  have stops : ∀ t us, r :: rest = t :: us → decide (t.kind = .closeBrace) = true := by
    intro t us same
    cases same
    simp [hr]
  have last : NoElse (r :: rest) := by
    intro t us same
    cases same
    simp [hr]
  obtain ⟨s', same, there⟩ := h here.advance goes stops last
  refine ⟨_, ?_, there.expect hr .expectedCloseBrace⟩
  simp only [block, same]

/-- A statement is read one level deeper by the parser of its kind. -/
theorem statement_succ {most levels : Nat} {p : Parser} {t : Token} {us : List Token}
    {node : Node} (h : p.ReadsStatement (t :: us) node)
    (byKind : ∀ s : State, s.current = t →
      statementByKind most levels (statement most levels) s = p s) :
    (statement most (levels + 1)).ReadsStatement (t :: us) node := by
  intro s rest here nearest
  have inside := here.with_depth (s.depth + 1)
  obtain ⟨s', same, there⟩ := h inside nearest
  refine ⟨{ s' with depth := s'.depth - 1 }, ?_, there.with_depth _⟩
  rw [statement, Parser.nested, byKind _ inside.current, same]

mutual

/-- Every statement of the grammar is read, with its tree.  The recursion is on the derivation, and
a block has fewer statements than tokens. -/
theorem Grammar.Statement.complete {most : Nat} : ∀ {levels : Nat} {ts : List Token} {node : Node},
    Statement maxOperators levels ts node → ts.length ≤ most →
    (statement most levels).ReadsStatement ts node
  | _, _, _, .assign ht hs h he, _ =>
      statement_succ (assignment_complete hs h he) fun s same => by
        simp only [statementByKind, same, ht]
  | _, _, _, .out hw h he, _ =>
      statement_succ (output_complete h he) fun s same => by
        simp only [statementByKind, same, hw]
  | _, _, _, .when hw hl h hr hb, le => by
      simp only [List.length_cons, List.length_append] at le
      have branch := hb.complete (show _ ≤ most by omega)
      exact statement_succ (conditional_complete hl h hr branch) fun s same => by
        simp only [statementByKind, same, hw]
  | _, _, _, .whenElse hw hl h hr hb closed ho hb', le => by
      simp only [List.length_cons, List.length_append] at le
      have branch := hb.complete (show _ ≤ most by omega)
      have branch' := hb'.complete (show _ ≤ most by omega)
      exact statement_succ (conditional_complete_else hl h hr branch closed ho branch')
        fun s same => by simp only [statementByKind, same, hw]
  | _, _, _, .loop hw hl h hr hb, le => by
      simp only [List.length_cons, List.length_append] at le
      have body := hb.complete (show _ ≤ most by omega)
      exact statement_succ (repetition_complete hl h hr body) fun s same => by
        simp only [statementByKind, same, hw]
  | _, _, _, .block hl hs hr, le => by
      simp only [List.length_cons, List.length_append] at le
      have list := hs.complete (show _ ≤ most by omega) (show _ ≤ most by omega)
      exact statement_succ (block_complete list hr) fun s same => by
        simp only [statementByKind, same, hl]

/-- Statements of the grammar are read as a list, within any bound that allows for their tokens. -/
theorem Grammar.Statements.complete {most : Nat} :
    ∀ {levels : Nat} {ts : List Token} {nodes : List Node},
      Statements maxOperators levels ts nodes → ts.length ≤ most →
      ∀ {bound : Nat}, ts.length ≤ bound → ReadsList (statement most levels) bound ts nodes
  | _, _, _, .nil, _, bound, _ => readsList_nil _ bound
  | _, _, _, .cons h hs, le, bound, le' => by
      rw [List.length_append] at le le'
      obtain ⟨t, us, rfl, -⟩ := h.head
      rw [List.length_cons] at le le'
      obtain ⟨bound, rfl⟩ : ∃ n, bound = n + 1 := ⟨bound - 1, by omega⟩
      exact readsList_cons h (h.complete (by simp; omega)) hs (hs.complete (by omega) (by omega))

end

/-- A program that derives from the grammar is read without a report. -/
theorem program_complete {s : State} {ts : List Token} {nodes : List Node}
    (here : s.At ts) (h : Statements maxOperators maxNesting ts nodes) :
    (program s).1 = nodes ∧ (program s).2.reports = [] := by
  have all : ts.length ≤ s.upcoming.length := by simp [here.upcoming]
  have start : s.At (ts ++ []) := by rwa [List.append_nil]
  obtain ⟨s', same, there⟩ :=
    h.complete all all start (fun _ _ => rfl) (by simp) (by intro t us same; cases same)
  rw [program, same]
  exact ⟨rfl, there.quiet.reports⟩

end WhenLoop
