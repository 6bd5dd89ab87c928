import WhenLoop.Node.Basic
import WhenLoop.Token.Basic

/-!
# The grammar of programs

The grammar is a family of relations between lists of tokens and trees.  It says nothing
of how a list of tokens is read.

`Phrase` has one rule for each alternative of the ladder of expressions and conditions.

```
or         := and (('or' | '||') and)*
and        := not (('and' | '&&') not)*
not        := ('not' | '!') not | comparison
comparison := term (('=' | '==' | '<' | '>' | '<=' | '>=') term)?
term       := factor (('+' | '-') factor)*
factor     := unary (('*' | '/' | '%') unary)*
unary      := '-' unary | primary
primary    := INT | IDENT | '(' or ')'
```

A chain `x (op x)*` is written with its last operator outermost, so the rules for chains
are left recursive and the tree of a chain groups to the left.

`Statement` and `Statements` have the rules for statements and for lists of them.

```
statement  := IDENT '=' expression ';'
            | 'out' expression ';'
            | 'when' '(' condition ')' statement ('else' statement)?
            | 'loop' '(' condition ')' statement
            | '{' statement* '}'
```

These rules alone let an `else` go with any `when` before it that has none.  It goes with
the nearest, so in a `when` that has an `else` the first branch does not end in a `when`
that lacks one (`Node.endsOpen`).

Three conditions come on top of the rules.  A literal is at most the greatest integer.  An
operand of an arithmetic operator or a comparison is no condition, and neither is a whole
expression.  And there are two limits.  The index `levels` of every relation bounds the
levels of nesting along every chain of constructs.  A statement, a whole expression or
condition, a group and a prefix operator open one level each.  The index `operators` of
`Phrase` counts the operators of the phrase, and `most` bounds it for every whole
expression and condition of a statement.
-/

namespace WhenLoop

/-- Whether a statement ends in a `when` without an `else`, so that an `else` behind it
would go with that `when`. -/
def Node.endsOpen : Node → Bool
  | .when _ _ none => true
  | .when _ _ (some elseBranch) => elseBranch.endsOpen
  | .loop _ body => body.endsOpen
  | _ => false
termination_by structural node => node

namespace Grammar

/-! ## Expressions and conditions -/

/-- The nonterminals of the ladder, from loosest to tightest. -/
inductive Rank where
  | or | and | not | comparison | term | factor | unary | primary
deriving DecidableEq, Repr

/-- The signs of comparisons. -/
def comparisonSigns : List (TokenKind × CompareOp) :=
  [(.assign, .eq), (.equal, .eq), (.less, .lt), (.greater, .gt), (.lessEqual, .le),
   (.greaterEqual, .ge)]

/-- The signs between the factors of a term. -/
def termSigns : List (TokenKind × ArithOp) :=
  [(.plus, .add), (.minus, .sub)]

/-- The signs between the operands of a factor. -/
def factorSigns : List (TokenKind × ArithOp) :=
  [(.star, .mul), (.slash, .div), (.percent, .mod)]

/-- `Phrase rank levels operators tokens node`: the tokens derive from the nonterminal
`rank` with `operators` operators and at most `levels` levels of nesting, and `node` is the
tree of the derivation. -/
inductive Phrase : Rank → (levels operators : Nat) → List Token → Node → Prop where
  | number {levels value : Nat} {t : Token} :
      t.kind = .number →
      Nat.ofDigitChars 10 t.text.toList 0 = value → value ≤ 2147483647 →
      Phrase .primary levels 0 [t] (.num (Int32.ofNat value))
  | name {levels : Nat} {t : Token} :
      t.kind = .name →
      Phrase .primary levels 0 [t] (.var t.text)
  | group {levels k : Nat} {l r : Token} {ts : List Token} {node : Node} :
      l.kind = .openParen → Phrase .or levels k ts node → r.kind = .closeParen →
      Phrase .primary (levels + 1) k (l :: ts ++ [r]) node
  | ofPrimary {levels k : Nat} {ts : List Token} {node : Node} :
      Phrase .primary levels k ts node →
      Phrase .unary levels k ts node
  | negative {levels k : Nat} {op : Token} {ts : List Token} {operand : Node} :
      op.kind = .minus → Phrase .unary levels k ts operand →
      operand.isCondition = false →
      Phrase .unary (levels + 1) (k + 1) (op :: ts) (.neg operand)
  | ofUnary {levels k : Nat} {ts : List Token} {node : Node} :
      Phrase .unary levels k ts node →
      Phrase .factor levels k ts node
  | product {levels j k : Nat} {op : Token} {sign : ArithOp} {ls rs : List Token}
      {left right : Node} :
      Phrase .factor levels j ls left → (op.kind, sign) ∈ factorSigns →
      Phrase .unary levels k rs right →
      left.isCondition = false → right.isCondition = false →
      Phrase .factor levels (j + 1 + k) (ls ++ op :: rs) (.arith sign left right)
  | ofFactor {levels k : Nat} {ts : List Token} {node : Node} :
      Phrase .factor levels k ts node →
      Phrase .term levels k ts node
  | sum {levels j k : Nat} {op : Token} {sign : ArithOp} {ls rs : List Token}
      {left right : Node} :
      Phrase .term levels j ls left → (op.kind, sign) ∈ termSigns →
      Phrase .factor levels k rs right →
      left.isCondition = false → right.isCondition = false →
      Phrase .term levels (j + 1 + k) (ls ++ op :: rs) (.arith sign left right)
  | ofTerm {levels k : Nat} {ts : List Token} {node : Node} :
      Phrase .term levels k ts node →
      Phrase .comparison levels k ts node
  | compare {levels j k : Nat} {op : Token} {sign : CompareOp} {ls rs : List Token}
      {left right : Node} :
      Phrase .term levels j ls left → (op.kind, sign) ∈ comparisonSigns →
      Phrase .term levels k rs right →
      left.isCondition = false → right.isCondition = false →
      Phrase .comparison levels (j + 1 + k) (ls ++ op :: rs) (.compare sign left right)
  | ofComparison {levels k : Nat} {ts : List Token} {node : Node} :
      Phrase .comparison levels k ts node →
      Phrase .not levels k ts node
  | negation {levels k : Nat} {op : Token} {ts : List Token} {operand : Node} :
      op.kind = .not → Phrase .not levels k ts operand →
      Phrase .not (levels + 1) (k + 1) (op :: ts) (.not operand.asCondition)
  | ofNot {levels k : Nat} {ts : List Token} {node : Node} :
      Phrase .not levels k ts node →
      Phrase .and levels k ts node
  | conjunction {levels j k : Nat} {op : Token} {ls rs : List Token} {left right : Node} :
      Phrase .and levels j ls left → op.kind = .and → Phrase .not levels k rs right →
      Phrase .and levels (j + 1 + k) (ls ++ op :: rs) (.and left.asCondition right.asCondition)
  | ofAnd {levels k : Nat} {ts : List Token} {node : Node} :
      Phrase .and levels k ts node →
      Phrase .or levels k ts node
  | disjunction {levels j k : Nat} {op : Token} {ls rs : List Token} {left right : Node} :
      Phrase .or levels j ls left → op.kind = .or → Phrase .and levels k rs right →
      Phrase .or levels (j + 1 + k) (ls ++ op :: rs) (.or left.asCondition right.asCondition)

/-- A whole expression of at most `most` operators. -/
inductive Expression (most : Nat) : (levels : Nat) → List Token → Node → Prop where
  | whole {levels k : Nat} {ts : List Token} {node : Node} :
      Phrase .or levels k ts node → k ≤ most → node.isCondition = false →
      Expression most (levels + 1) ts node

/-- A whole condition of at most `most` operators.  An integer becomes a condition. -/
inductive Condition (most : Nat) : (levels : Nat) → List Token → Node → Prop where
  | whole {levels k : Nat} {ts : List Token} {node : Node} :
      Phrase .or levels k ts node → k ≤ most →
      Condition most (levels + 1) ts node.asCondition

/-! ## Statements -/

mutual

/-- `Statement most levels tokens node`: the tokens derive a statement with at most
`levels` levels of nesting, in which no expression or condition has more than `most`
operators, and `node` is the tree of the derivation. -/
inductive Statement (most : Nat) : (levels : Nat) → List Token → Node → Prop where
  | assign {levels : Nat} {target sign stop : Token} {ts : List Token} {value : Node} :
      target.kind = .name → sign.kind = .assign → Expression most levels ts value →
      stop.kind = .semicolon →
      Statement most (levels + 1) (target :: sign :: ts ++ [stop]) (.assign target.text value)
  | out {levels : Nat} {word stop : Token} {ts : List Token} {value : Node} :
      word.kind = .out → Expression most levels ts value → stop.kind = .semicolon →
      Statement most (levels + 1) (word :: ts ++ [stop]) (.out value)
  | when {levels : Nat} {word l r : Token} {cs ts : List Token} {test thenBranch : Node} :
      word.kind = .when → l.kind = .openParen → Condition most levels cs test →
      r.kind = .closeParen → Statement most levels ts thenBranch →
      Statement most (levels + 1) (word :: l :: cs ++ r :: ts) (.when test thenBranch none)
  | whenElse {levels : Nat} {word l r other : Token} {cs ts us : List Token}
      {test thenBranch elseBranch : Node} :
      word.kind = .when → l.kind = .openParen → Condition most levels cs test →
      r.kind = .closeParen → Statement most levels ts thenBranch →
      thenBranch.endsOpen = false →
      other.kind = .otherwise → Statement most levels us elseBranch →
      Statement most (levels + 1) (word :: l :: cs ++ r :: ts ++ other :: us)
        (.when test thenBranch (some elseBranch))
  | loop {levels : Nat} {word l r : Token} {cs ts : List Token} {test body : Node} :
      word.kind = .loop → l.kind = .openParen → Condition most levels cs test →
      r.kind = .closeParen → Statement most levels ts body →
      Statement most (levels + 1) (word :: l :: cs ++ r :: ts) (.loop test body)
  | block {levels : Nat} {l r : Token} {ts : List Token} {nodes : List Node} :
      l.kind = .openBrace → Statements most levels ts nodes → r.kind = .closeBrace →
      Statement most (levels + 1) (l :: ts ++ [r]) (.seq nodes)

/-- Statements one after the other. -/
inductive Statements (most : Nat) : (levels : Nat) → List Token → List Node → Prop where
  | nil {levels : Nat} : Statements most levels [] []
  | cons {levels : Nat} {ts us : List Token} {node : Node} {nodes : List Node} :
      Statement most levels ts node → Statements most levels us nodes →
      Statements most levels (ts ++ us) (node :: nodes)

end

/-- A program is a list of statements. -/
inductive Program (most levels : Nat) : List Token → Node → Prop where
  | whole {ts : List Token} {nodes : List Node} :
      Statements most levels ts nodes → Program most levels ts (.seq nodes)

/-! ## First tokens -/

/-- What a phrase starts with. -/
def Rank.starts : Rank → List TokenKind
  | .primary => [.number, .name, .openParen]
  | .unary | .factor | .term | .comparison => [.number, .name, .openParen, .minus]
  | .not | .and | .or => [.number, .name, .openParen, .minus, .not]

/-- By induction on the derivation: a phrase starts as its first part does, and the starts of a
tighter rank are starts of a looser one. -/
theorem Phrase.head {rank : Rank} {levels k : Nat} {ts : List Token} {node : Node}
    (h : Phrase rank levels k ts node) : ∃ t us, ts = t :: us ∧ t.kind ∈ rank.starts := by
  induction h with
  | number kind => exact ⟨_, _, rfl, by simp [Rank.starts, kind]⟩
  | name kind => exact ⟨_, _, rfl, by simp [Rank.starts, kind]⟩
  | group kind => exact ⟨_, _, rfl, by simp [Rank.starts, kind]⟩
  | negative kind => exact ⟨_, _, rfl, by simp [Rank.starts, kind]⟩
  | negation kind => exact ⟨_, _, rfl, by simp [Rank.starts, kind]⟩
  | ofUnary _ ih => exact ih
  | ofFactor _ ih => exact ih
  | ofTerm _ ih => exact ih
  | ofNot _ ih => exact ih
  | ofAnd _ ih => exact ih
  | ofPrimary _ ih =>
      obtain ⟨t, us, rfl, first⟩ := ih
      exact ⟨t, us, rfl, by simpa [Rank.starts] using List.mem_append_left [.minus] first⟩
  | ofComparison _ ih =>
      obtain ⟨t, us, rfl, first⟩ := ih
      exact ⟨t, us, rfl, by simpa [Rank.starts] using List.mem_append_left [.not] first⟩
  | product _ _ _ _ _ ih _ =>
      obtain ⟨t, us, rfl, first⟩ := ih
      exact ⟨t, _, rfl, first⟩
  | sum _ _ _ _ _ ih _ =>
      obtain ⟨t, us, rfl, first⟩ := ih
      exact ⟨t, _, rfl, first⟩
  | compare _ _ _ _ _ ih _ =>
      obtain ⟨t, us, rfl, first⟩ := ih
      exact ⟨t, _, rfl, first⟩
  | conjunction _ _ _ ih _ =>
      obtain ⟨t, us, rfl, first⟩ := ih
      exact ⟨t, _, rfl, first⟩
  | disjunction _ _ _ ih _ =>
      obtain ⟨t, us, rfl, first⟩ := ih
      exact ⟨t, _, rfl, first⟩

/-- What a statement starts with. -/
def starts : List TokenKind := [.name, .out, .when, .loop, .openBrace]

/-- Each rule for statements fixes the first token. -/
theorem Statement.head {most levels : Nat} {ts : List Token} {node : Node}
    (h : Statement most levels ts node) : ∃ t us, ts = t :: us ∧ t.kind ∈ starts := by
  cases h with
  | assign target => exact ⟨_, _, rfl, by simp [starts, target]⟩
  | out word => exact ⟨_, _, rfl, by simp [starts, word]⟩
  | when word => exact ⟨_, _, rfl, by simp [starts, word]⟩
  | whenElse word => exact ⟨_, _, rfl, by simp [starts, word]⟩
  | loop word => exact ⟨_, _, rfl, by simp [starts, word]⟩
  | block brace => exact ⟨_, _, rfl, by simp [starts, brace]⟩

end Grammar

end WhenLoop
