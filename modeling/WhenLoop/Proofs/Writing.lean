import WhenLoop.Proofs.Concrete
import WhenLoop.Proofs.Layout

/-!
# Writing trees

A tree is written as a source in one way.  Every operand that is more than a literal or a name
stands in parentheses, so nothing is left to the ranks of operators.  A list of statements
stands in braces unless it is the whole program.  Every other statement is written as it is,
without braces of its own.  An integer in a condition's place is written as the integer.

A `Draft` is a list of words with what the two limits of the language measure in it.  Each way
to put drafts together says what it does to both measures, so `Node.draft` writes a tree and
measures its text in one go.

Within the limits the written form of a concrete tree derives the tree (`Node.Concrete.derives`).
The tree's source spells it (`Node.Concrete.spells_source`), and so does every other source with
the same words.
-/

namespace WhenLoop

open Lexical Grammar

/-! ## Drafts -/

/-- The first spelling of a kind that has one. -/
def Word.mark (kind : TokenKind) : Word := ⟨kind, (spellings kind).headD ""⟩

/-- Words, with what the limits of the language measure in them. -/
structure Draft where
  /-- The words. -/
  words : List Word
  /-- The levels of nesting that they open. -/
  levels : Nat
  /-- The operators of a phrase.  Of statements, the most operators that an expression or a
  condition in them has. -/
  operators : Nat

@[simp]
theorem Word.kind_mark (kind : TokenKind) : (Word.mark kind).kind = kind := rfl

namespace Draft

/-- One word. -/
def word (w : Word) : Draft := ⟨[w], 0, 0⟩

/-- A word of a kind that has a fixed spelling. -/
def mark (kind : TokenKind) : Draft := word (.mark kind)

/-- One level around a draft. -/
def nested (d : Draft) : Draft := { d with levels := d.levels + 1 }

/-- Drafts beside each other, with no operator between them. -/
instance : Append Draft where
  append left right :=
    ⟨left.words ++ right.words, max left.levels right.levels, max left.operators right.operators⟩

/-- A phrase in parentheses.  They open a level. -/
def group (d : Draft) : Draft :=
  ⟨.mark .openParen :: d.words ++ [.mark .closeParen], d.levels + 1, d.operators⟩

/-- An operator before its operand.  It opens a level. -/
def before (sign : TokenKind) (operand : Draft) : Draft :=
  ⟨.mark sign :: operand.words, operand.levels + 1, operand.operators + 1⟩

/-- An operator between its operands. -/
def between (sign : TokenKind) (left right : Draft) : Draft :=
  ⟨left.words ++ .mark sign :: right.words, max left.levels right.levels,
    left.operators + 1 + right.operators⟩

end Draft

/-! ## The written form -/

/-- The sign of the operator. -/
def ArithOp.token : ArithOp → TokenKind
  | add => .plus
  | sub => .minus
  | mul => .star
  | div => .slash
  | mod => .percent

/-- The sign of the operator. -/
def CompareOp.token : CompareOp → TokenKind
  | eq => .assign
  | lt => .less
  | gt => .greater
  | le => .lessEqual
  | ge => .greaterEqual

/-- A sign of arithmetic stands between factors or between the operands of one. -/
theorem ArithOp.token_mem (op : ArithOp) :
    (op.token, op) ∈ termSigns ∨ (op.token, op) ∈ factorSigns := by
  cases op <;> decide

theorem CompareOp.token_mem (op : CompareOp) : (op.token, op) ∈ comparisonSigns := by
  cases op <;> decide

namespace Node

open Draft

/-- Whether the tree is written as one word. -/
def isAtom : Node → Bool
  | num _ | var _ | nonzero (num _) | nonzero (var _) => true
  | _ => false

/-- The draft of a tree in an operand's place. -/
def enclose (node : Node) (d : Draft) : Draft := if node.isAtom then d else d.group

/-- The draft of an expression or a condition.  A statement has none. -/
def phrase : Node → Draft
  | num value => .word ⟨.number, value.toNatClampNeg.repr⟩
  | var name => .word ⟨.name, name⟩
  | arith op left right =>
      .between op.token (left.enclose left.phrase) (right.enclose right.phrase)
  | neg operand => .before .minus (operand.enclose operand.phrase)
  | compare op left right =>
      .between op.token (left.enclose left.phrase) (right.enclose right.phrase)
  | and left right => .between .and (left.enclose left.phrase) (right.enclose right.phrase)
  | or left right => .between .or (left.enclose left.phrase) (right.enclose right.phrase)
  | not operand => .before .not (operand.enclose operand.phrase)
  | nonzero operand => operand.phrase
  | _ => ⟨[], 0, 0⟩
termination_by structural node => node

/-- The draft of a condition in the parentheses of a statement. -/
def guarding (condition : Node) : Draft :=
  mark .openParen ++ condition.phrase.nested ++ mark .closeParen

mutual

/-- The draft of a statement.  Nothing else has one. -/
def draft : Node → Draft
  | assign target value =>
      (word ⟨.name, target⟩ ++ mark .assign ++ value.phrase.nested ++ mark .semicolon).nested
  | out value => (mark .out ++ value.phrase.nested ++ mark .semicolon).nested
  | .when condition thenBranch none =>
      (mark .when ++ condition.guarding ++ thenBranch.draft).nested
  | .when condition thenBranch (some elseBranch) =>
      (mark .when ++ condition.guarding ++ thenBranch.draft ++ mark .otherwise
        ++ elseBranch.draft).nested
  | loop condition body => (mark .loop ++ condition.guarding ++ body.draft).nested
  | seq statements => (mark .openBrace ++ draftAll statements ++ mark .closeBrace).nested
  | _ => ⟨[], 0, 0⟩
termination_by structural node => node

/-- The draft of statements one after the other. -/
def draftAll : List Node → Draft
  | [] => ⟨[], 0, 0⟩
  | node :: nodes => node.draft ++ draftAll nodes
termination_by structural nodes => nodes

end

/-- The draft of a whole program: its statements, without braces around them. -/
def program : Node → Draft
  | seq statements => draftAll statements
  | node => node.draft

/-- The source of a program, with a blank behind every word. -/
def source (tree : Node) : String :=
  String.ofList (layout [] (tree.program.words.map fun w => (w, [' '])))

end Node

example :
    (Node.seq [.when (.and (.nonzero (.var "x")) (.not (.compare .le (.neg (.num 1)) (.var "y"))))
      (.seq [.out (.arith .sub (.arith .sub (.num 3) (.num 2)) (.num 1))]) none]).source
    = "when ( x && ( ! ( ( - 1 ) <= y ) ) ) \x7b out ( 3 - 2 ) - 1 ; \x7d " := by decide +kernel

/-! ## Drafts within the limits -/

/-- The draft is within the limits. -/
structure Draft.Fits (d : Draft) (most levels : Nat) : Prop where
  /-- It opens at most `levels` levels of nesting. -/
  levels : d.levels ≤ levels
  /-- It has at most `most` operators in an expression or a condition. -/
  operators : d.operators ≤ most

namespace Draft

@[simp]
theorem fits_word (w : Word) (most levels : Nat) : (word w).Fits most levels :=
  ⟨Nat.zero_le _, Nat.zero_le _⟩

@[simp]
theorem fits_mark (kind : TokenKind) (most levels : Nat) : (mark kind).Fits most levels :=
  fits_word _ _ _

/-- Drafts one behind the other fit where both do. -/
@[simp]
theorem fits_append {left right : Draft} {most levels : Nat} :
    (left ++ right).Fits most levels ↔ left.Fits most levels ∧ right.Fits most levels := by
  constructor
  · rintro ⟨le, le'⟩
    obtain ⟨hl, hr⟩ := Nat.max_le.mp le
    obtain ⟨hl', hr'⟩ := Nat.max_le.mp le'
    exact ⟨⟨hl, hl'⟩, hr, hr'⟩
  · rintro ⟨hl, hr⟩
    exact ⟨Nat.max_le.mpr ⟨hl.levels, hr.levels⟩, Nat.max_le.mpr ⟨hl.operators, hr.operators⟩⟩

/-- A level around a draft takes one of the levels. -/
@[simp]
theorem fits_nested {d : Draft} {most levels : Nat} :
    d.nested.Fits most (levels + 1) ↔ d.Fits most levels :=
  ⟨fun h => ⟨Nat.le_of_succ_le_succ h.levels, h.operators⟩,
    fun h => ⟨Nat.succ_le_succ h.levels, h.operators⟩⟩

theorem Fits.left {left right : Draft} {most levels : Nat}
    (h : (left ++ right).Fits most levels) : left.Fits most levels :=
  (fits_append.mp h).1

theorem Fits.right {left right : Draft} {most levels : Nat}
    (h : (left ++ right).Fits most levels) : right.Fits most levels :=
  (fits_append.mp h).2

/-- What opens a level fits only where there is one left. -/
theorem Fits.inner {d : Draft} {most levels : Nat} (h : d.nested.Fits most levels) :
    ∃ fewer, levels = fewer + 1 ∧ d.Fits most fewer := by
  obtain ⟨fewer, rfl⟩ := Nat.exists_eq_add_of_le' (Nat.le_trans (Nat.le_add_left 1 _) h.levels)
  exact ⟨fewer, rfl, fits_nested.mp h⟩

/-- The tokens of a draft. -/
def tokens (d : Draft) : List Token := d.words.map Word.token

@[simp]
theorem tokens_word (w : Word) : (word w).tokens = [w.token] := rfl

@[simp]
theorem tokens_mark (kind : TokenKind) : (mark kind).tokens = [(Word.mark kind).token] := rfl

@[simp]
theorem tokens_nested (d : Draft) : d.nested.tokens = d.tokens := rfl

@[simp]
theorem tokens_append (left right : Draft) : (left ++ right).tokens = left.tokens ++ right.tokens :=
  List.map_append

@[simp]
theorem tokens_group (d : Draft) : d.group.tokens =
    (Word.mark .openParen).token :: d.tokens ++ [(Word.mark .closeParen).token] :=
  List.map_append

@[simp]
theorem tokens_before (sign : TokenKind) (operand : Draft) :
    (before sign operand).tokens = (Word.mark sign).token :: operand.tokens :=
  rfl

@[simp]
theorem tokens_between (sign : TokenKind) (left right : Draft) :
    (between sign left right).tokens = left.tokens ++ (Word.mark sign).token :: right.tokens :=
  List.map_append

end Draft

/-! ## The written form of an expression or a condition derives it -/

namespace Grammar

variable {levels k : Nat} {ts : List Token} {node : Node}

/-- A word or a group may stand anywhere. -/
theorem Phrase.of_primary (h : Phrase .primary levels k ts node) (rank : Rank) :
    Phrase rank levels k ts node := by
  have unary : Phrase .unary levels k ts node := .ofPrimary h
  have term : Phrase .term levels k ts node := .ofFactor (.ofUnary unary)
  have not : Phrase .not levels k ts node := .ofComparison (.ofTerm term)
  cases rank with
  | primary => exact h
  | unary => exact unary
  | factor => exact .ofUnary unary
  | term => exact term
  | comparison => exact .ofTerm term
  | not => exact not
  | and => exact .ofNot not
  | or => exact .ofAnd (.ofNot not)

theorem Phrase.of_not (h : Phrase .not levels k ts node) : Phrase .or levels k ts node :=
  .ofAnd (.ofNot h)

theorem Phrase.of_term (h : Phrase .term levels k ts node) : Phrase .or levels k ts node :=
  .of_not (.ofComparison (.ofTerm h))

end Grammar

/-- The draft derives the tree wherever its levels fit. -/
def Draft.Reads (d : Draft) (rank : Rank) (node : Node) : Prop :=
  ∀ levels, d.levels ≤ levels → Phrase rank levels d.operators d.tokens node

/-- One level around a draft takes one of the levels. -/
theorem Draft.Reads.opening {d : Draft} {rank : Rank} {node : Node} (h : d.Reads rank node)
    {levels : Nat} (le : d.levels + 1 ≤ levels) :
    ∃ fewer, levels = fewer + 1 ∧ Phrase rank fewer d.operators d.tokens node := by
  obtain ⟨fewer, rfl⟩ := Nat.exists_eq_add_of_le' (Nat.le_trans (Nat.le_add_left 1 _) le)
  exact ⟨fewer, rfl, h fewer (Nat.le_of_succ_le_succ le)⟩

namespace Draft.Reads

variable {sign : TokenKind} {d e : Draft} {left right operand node : Node}

theorem group (h : d.Reads .or node) : d.group.Reads .primary node := by
  intro levels le
  obtain ⟨fewer, rfl, phrase⟩ := h.opening le
  rw [tokens_group]
  exact .group rfl phrase rfl

/-- An operator before its operand is read by a rule that takes a word or a group. -/
theorem before (h : d.Reads .primary operand)
    (rule : ∀ {levels k : Nat} {ts : List Token}, Phrase .primary levels k ts operand →
      Phrase .or (levels + 1) (k + 1) ((Word.mark sign).token :: ts) node) :
    (Draft.before sign d).Reads .or node := by
  intro levels le
  obtain ⟨fewer, rfl, phrase⟩ := h.opening le
  rw [tokens_before]
  exact rule phrase

/-- An operator between its operands is read by a rule that takes words or groups. -/
theorem between (hl : d.Reads .primary left) (hr : e.Reads .primary right)
    (rule : ∀ {levels j k : Nat} {ls rs : List Token}, Phrase .primary levels j ls left →
      Phrase .primary levels k rs right →
      Phrase .or levels (j + 1 + k) (ls ++ (Word.mark sign).token :: rs) node) :
    (Draft.between sign d e).Reads .or node := by
  intro levels le
  obtain ⟨lel, ler⟩ := Nat.max_le.mp le
  rw [tokens_between]
  exact rule (hl levels lel) (hr levels ler)

end Draft.Reads

namespace Node

/-- The tree that the written form derives.  What makes a condition of an integer is not written. -/
def bare : Node → Node
  | nonzero operand => operand
  | node => node

theorem IsExpression.bare_eq {node : Node} (h : node.IsExpression) : node.bare = node := by
  cases h <;> rfl

/-- The conversion that is not written is made again when the condition is read. -/
theorem IsCondition.asCondition_bare {node : Node} (h : node.IsCondition) :
    node.bare.asCondition = node := by
  cases h with
  | nonzero operand => simp [bare, Node.asCondition, operand.isCondition_eq]
  | _ => rfl

/-- A number that is not negative is read from its digits. -/
theorem num_reads {value : Int32} (h : 0 ≤ value) :
    (num value).phrase.Reads .primary (num value) := by
  intro levels _
  have most := value.toNatClampNeg_lt
  have derives : Phrase .primary levels 0 [Word.token ⟨.number, value.toNatClampNeg.repr⟩]
      (num (Int32.ofNat value.toNatClampNeg)) :=
    .number rfl (by rw [Word.token_text, Nat.toList_repr, Nat.ofDigitChars_toDigits] <;> decide)
      (by omega)
  rw [value.ofNat_toNatClampNeg h] at derives
  exact derives

theorem var_reads (name : String) : (var name).phrase.Reads .primary (var name) := by
  intro levels _
  exact .name rfl

/-- What is written as one word may be an operand as it is. -/
theorem atom_reads {node : Node} (atom : node.isAtom = true) (h : node.Writable) :
    node.phrase.Reads .primary node.bare := by
  cases h with
  | num nonneg => exact num_reads nonneg
  | var => exact var_reads _
  | nonzero operand =>
      cases operand with
      | num nonneg => exact num_reads nonneg
      | var => exact var_reads _
      | _ => cases atom
  | _ => cases atom

/-- An operand is one word or a group. -/
theorem enclose_reads {node : Node} (h : node.Writable) (reads : node.phrase.Reads .or node.bare) :
    (node.enclose node.phrase).Reads .primary node.bare := by
  rw [enclose]
  split
  next atom => exact atom_reads atom h
  next => exact reads.group

/-- In an operand's place an expression is one word or in parentheses. -/
theorem IsExpression.operand_reads {node : Node} (h : node.IsExpression) (writable : node.Writable)
    (reads : node.phrase.Reads .or node) : (node.enclose node.phrase).Reads .primary node := by
  have operand := enclose_reads writable (h.bare_eq.symm ▸ reads)
  rw [h.bare_eq] at operand
  exact operand

/-- By induction on the expression.  Every operand that is no atom is in parentheses, so an operator
joins two operands of the tightest rank. -/
theorem IsExpression.reads {node : Node} (h : node.IsExpression) (writable : node.Writable) :
    node.phrase.Reads .or node := by
  induction h with
  | num => exact fun levels le => (atom_reads rfl writable levels le).of_primary _
  | var => exact fun levels le => (atom_reads rfl writable levels le).of_primary _
  | @arith op _ _ hl hr ihl ihr =>
      cases writable with
      | arith wl wr =>
          refine (hl.operand_reads wl (ihl wl)).between (hr.operand_reads wr (ihr wr)) fun l r => ?_
          have il := hl.isCondition_eq
          have ir := hr.isCondition_eq
          rcases op.token_mem with sign | sign
          · exact .of_term (.sum (l.of_primary _) sign (r.of_primary _) il ir)
          · exact .of_term (.ofFactor (.product (l.of_primary _) sign (r.of_primary _) il ir))
  | neg h ih =>
      cases writable with
      | neg w =>
          refine (h.operand_reads w (ih w)).before fun phrase => ?_
          have integer := h.isCondition_eq
          exact .of_term (.ofFactor (.ofUnary (.negative rfl (phrase.of_primary _) integer)))

/-- By induction on the condition, in the same way.  An integer that was converted is written
without its conversion. -/
theorem IsCondition.reads {node : Node} (h : node.IsCondition) (writable : node.Writable) :
    node.phrase.Reads .or node.bare := by
  induction h with
  | @compare op _ _ hl hr =>
      cases writable with
      | compare wl wr =>
          have left := hl.operand_reads wl (hl.reads wl)
          have right := hr.operand_reads wr (hr.reads wr)
          refine left.between right fun l r => ?_
          have il := hl.isCondition_eq
          have ir := hr.isCondition_eq
          exact .of_not
            (.ofComparison (.compare (l.of_primary _) op.token_mem (r.of_primary _) il ir))
  | and hl hr ihl ihr =>
      cases writable with
      | and wl wr =>
          refine (enclose_reads wl (ihl wl)).between (enclose_reads wr (ihr wr)) fun l r => ?_
          rw [← hl.asCondition_bare, ← hr.asCondition_bare]
          exact .ofAnd (.conjunction (l.of_primary _) rfl (r.of_primary _))
  | or hl hr ihl ihr =>
      cases writable with
      | or wl wr =>
          refine (enclose_reads wl (ihl wl)).between (enclose_reads wr (ihr wr)) fun l r => ?_
          rw [← hl.asCondition_bare, ← hr.asCondition_bare]
          exact .disjunction (l.of_primary _) rfl (r.of_primary _)
  | not h ih =>
      cases writable with
      | not w =>
          refine (enclose_reads w (ih w)).before fun phrase => ?_
          rw [← h.asCondition_bare]
          exact .of_not (.negation rfl (phrase.of_primary _))
  | nonzero h =>
      cases writable with
      | nonzero w => exact h.reads w

/-! ## The written form of a statement derives it -/

section

variable (condition value thenBranch elseBranch body : Node)

theorem tokens_assign (target : String) :
    (assign target value).draft.tokens = Word.token ⟨.name, target⟩ ::
      (Word.mark .assign).token :: value.phrase.tokens ++ [(Word.mark .semicolon).token] := by
  simp [draft]

theorem tokens_out :
    (out value).draft.tokens = (Word.mark .out).token :: value.phrase.tokens ++
      [(Word.mark .semicolon).token] := by
  simp [draft]

theorem tokens_when :
    (Node.when condition thenBranch none).draft.tokens = (Word.mark .when).token ::
      (Word.mark .openParen).token :: condition.phrase.tokens ++
      (Word.mark .closeParen).token :: thenBranch.draft.tokens := by
  simp [draft, guarding]

theorem tokens_whenElse :
    (Node.when condition thenBranch (some elseBranch)).draft.tokens = (Word.mark .when).token ::
      (Word.mark .openParen).token :: condition.phrase.tokens ++
      (Word.mark .closeParen).token :: thenBranch.draft.tokens ++
      (Word.mark .otherwise).token :: elseBranch.draft.tokens := by
  simp [draft, guarding]

theorem tokens_loop :
    (loop condition body).draft.tokens = (Word.mark .loop).token ::
      (Word.mark .openParen).token :: condition.phrase.tokens ++
      (Word.mark .closeParen).token :: body.draft.tokens := by
  simp [draft, guarding]

theorem tokens_seq (statements : List Node) :
    (seq statements).draft.tokens = (Word.mark .openBrace).token ::
      (draftAll statements).tokens ++ [(Word.mark .closeBrace).token] := by
  simp [draft]

end

/-- An expression within the limits is derived from its draft. -/
theorem IsExpression.derives {node : Node} (h : node.IsExpression) (writable : node.Writable)
    {most levels : Nat} (fits : node.phrase.nested.Fits most levels) :
    Expression most levels node.phrase.tokens node := by
  obtain ⟨fewer, rfl, inner⟩ := fits.inner
  exact .whole (h.reads writable fewer inner.levels) inner.operators h.isCondition_eq

/-- A condition within the limits is derived from its draft, and its conversion is made again. -/
theorem IsCondition.derives {node : Node} (h : node.IsCondition) (writable : node.Writable)
    {most levels : Nat} (fits : node.phrase.nested.Fits most levels) :
    Condition most levels node.phrase.tokens node := by
  obtain ⟨fewer, rfl, inner⟩ := fits.inner
  have whole : Condition most (fewer + 1) node.phrase.tokens node.bare.asCondition :=
    .whole (h.reads writable fewer inner.levels) inner.operators
  rw [h.asCondition_bare] at whole
  exact whole

/-- Statements one after the other derive if each of them does. -/
theorem draftAll_derives {nodes : List Node} {most levels : Nat}
    (each : ∀ node ∈ nodes, ∀ {levels : Nat}, node.draft.Fits most levels →
      Statement most levels node.draft.tokens node)
    (fits : (draftAll nodes).Fits most levels) :
    Statements most levels (draftAll nodes).tokens nodes := by
  induction nodes with
  | nil => exact .nil
  | cons node nodes ih =>
      obtain ⟨first, others⟩ := List.forall_mem_cons.mp each
      rw [draftAll] at fits ⊢
      rw [Draft.tokens_append]
      exact .cons (first fits.left) (ih others fits.right)

/-- By induction on the statement.  Each draft has the tokens of its rule, and the parts fit what is
left of the limits. -/
theorem IsStatement.derives {node : Node} (h : node.IsStatement) (writable : node.Writable)
    {most levels : Nat} (fits : node.draft.Fits most levels) :
    Statement most levels node.draft.tokens node := by
  induction h generalizing levels with
  | assign value =>
      cases writable with
      | assign _ w =>
          obtain ⟨fewer, rfl, inner⟩ := fits.inner
          rw [tokens_assign]
          exact .assign rfl rfl (value.derives w inner.left.right) rfl
  | when condition _ ih =>
      cases writable with
      | when wc wt =>
          obtain ⟨fewer, rfl, inner⟩ := fits.inner
          have test := condition.derives wc inner.left.right.left.right
          rw [tokens_when]
          exact .when rfl rfl test rfl (ih wt inner.right)
  | whenElse condition _ _ iht ihe =>
      cases writable with
      | whenElse wc wt closed we =>
          obtain ⟨fewer, rfl, inner⟩ := fits.inner
          have first := inner.left.left
          have test := condition.derives wc first.left.right.left.right
          rw [tokens_whenElse]
          exact .whenElse rfl rfl test rfl (iht wt first.right) closed rfl (ihe we inner.right)
  | loop condition _ ih =>
      cases writable with
      | loop wc wb =>
          obtain ⟨fewer, rfl, inner⟩ := fits.inner
          have test := condition.derives wc inner.left.right.left.right
          rw [tokens_loop]
          exact .loop rfl rfl test rfl (ih wb inner.right)
  | out value =>
      cases writable with
      | out w =>
          obtain ⟨fewer, rfl, inner⟩ := fits.inner
          rw [tokens_out]
          exact .out rfl (value.derives w inner.left.right) rfl
  | seq _ ih =>
      cases writable with
      | seq w =>
          obtain ⟨fewer, rfl, inner⟩ := fits.inner
          have body :=
            draftAll_derives (fun node mem _ => ih node mem (w node mem)) inner.left.right
          rw [tokens_seq]
          exact .block rfl body rfl

end Node

/-! ## The written form can be spelled -/

namespace Draft

/-- The words of the draft are such as a source can spell. -/
def Spellable (d : Draft) : Prop := Legible d.tokens

namespace Spellable

theorem word {w : Word} (h : Lexeme w.kind w.text.toList) : (word w).Spellable :=
  Legible.cons_iff.mpr ⟨h, .nil⟩

/-- A kind with a fixed spelling has the spelling as a text. -/
theorem mark (kind : TokenKind) (h : (spellings kind).isEmpty = false) : (mark kind).Spellable := by
  refine word (.fixed ?_)
  rw [Word.mark]
  cases texts : spellings kind with
  | nil => simp [texts] at h
  | cons text others => exact List.mem_cons_self

theorem append {left right : Draft} (hl : left.Spellable) (hr : right.Spellable) :
    (left ++ right).Spellable := by
  rw [Spellable, tokens_append]
  exact Legible.append_iff.mpr ⟨hl, hr⟩

theorem group {d : Draft} (h : d.Spellable) : d.group.Spellable :=
  ((mark .openParen rfl).append h).append (mark .closeParen rfl)

theorem before {sign : TokenKind} (hs : (spellings sign).isEmpty = false) {operand : Draft}
    (h : operand.Spellable) : (before sign operand).Spellable :=
  (mark sign hs).append h

theorem between {sign : TokenKind} (hs : (spellings sign).isEmpty = false) {left right : Draft}
    (hl : left.Spellable) (hr : right.Spellable) : (between sign left right).Spellable :=
  hl.append ((mark sign hs).append hr)

end Spellable

end Draft

namespace Node

/-- Every number has a spelling, as digits. -/
theorem num_spellable (value : Int32) : (num value).phrase.Spellable := by
  refine .word ?_
  rw [Nat.toList_repr]
  have digits : ∀ c ∈ Nat.toDigits 10 value.toNatClampNeg, c.isDigit = true :=
    fun c mem => Nat.isDigit_of_mem_toDigits (by decide) (by decide) mem
  cases text : Nat.toDigits 10 value.toNatClampNeg with
  | nil => exact absurd text Nat.toDigits_ne_nil
  | cons c cs =>
      rw [text] at digits
      obtain ⟨first, others⟩ := List.forall_mem_cons.mp digits
      exact .number first others

theorem enclose_spellable (node : Node) {d : Draft} (h : d.Spellable) :
    (node.enclose d).Spellable := by
  rw [enclose]
  split
  · exact h
  · exact h.group

/-- By induction on the tree: its signs have spellings, and its names and numbers are lexemes. -/
theorem Writable.phrase_spellable {node : Node} (h : node.Writable) : node.phrase.Spellable := by
  induction h with
  | num => exact num_spellable _
  | var lexeme => exact .word lexeme
  | @arith op _ _ _ _ ihl ihr =>
      have sign : (spellings op.token).isEmpty = false := by cases op <;> rfl
      exact .between sign (enclose_spellable _ ihl) (enclose_spellable _ ihr)
  | neg _ ih => exact .before rfl (enclose_spellable _ ih)
  | @compare op _ _ _ _ ihl ihr =>
      have sign : (spellings op.token).isEmpty = false := by cases op <;> rfl
      exact .between sign (enclose_spellable _ ihl) (enclose_spellable _ ihr)
  | and _ _ ihl ihr => exact .between rfl (enclose_spellable _ ihl) (enclose_spellable _ ihr)
  | or _ _ ihl ihr => exact .between rfl (enclose_spellable _ ihl) (enclose_spellable _ ihr)
  | not _ ih => exact .before rfl (enclose_spellable _ ih)
  | nonzero _ ih => exact ih
  | _ => exact Legible.nil

theorem Writable.guarding_spellable {condition : Node} (h : condition.Writable) :
    condition.guarding.Spellable :=
  ((Draft.Spellable.mark .openParen rfl).append h.phrase_spellable).append (.mark .closeParen rfl)

theorem draftAll_spellable {nodes : List Node} (h : ∀ node ∈ nodes, node.draft.Spellable) :
    (draftAll nodes).Spellable := by
  induction nodes with
  | nil => exact Legible.nil
  | cons node nodes ih =>
      obtain ⟨first, others⟩ := List.forall_mem_cons.mp h
      exact first.append (ih others)

/-- By induction on the statement: its marks have spellings, and so have its names and
expressions. -/
theorem Writable.draft_spellable {node : Node} (h : node.Writable) : node.draft.Spellable := by
  induction h with
  | assign lexeme value =>
      have target : (Draft.word ⟨.name, _⟩).Spellable := .word lexeme
      have sign := target.append (.mark .assign rfl)
      exact (sign.append value.phrase_spellable).append (.mark .semicolon rfl)
  | out value =>
      have word := Draft.Spellable.mark .out rfl
      exact (word.append value.phrase_spellable).append (.mark .semicolon rfl)
  | when condition _ _ ih =>
      have word := Draft.Spellable.mark .when rfl
      exact (word.append condition.guarding_spellable).append ih
  | whenElse condition _ _ _ _ iht ihe =>
      have word := Draft.Spellable.mark .when rfl
      have first := (word.append condition.guarding_spellable).append iht
      exact (first.append (.mark .otherwise rfl)).append ihe
  | loop condition _ _ ih =>
      have word := Draft.Spellable.mark .loop rfl
      exact (word.append condition.guarding_spellable).append ih
  | seq _ ih =>
      have brace := Draft.Spellable.mark .openBrace rfl
      exact (brace.append (draftAll_spellable ih)).append (.mark .closeBrace rfl)
  | _ => exact Legible.nil

/-! ## The written form of a program -/

theorem Concrete.spellable {tree : Node} (h : tree.Concrete) : tree.program.Spellable := by
  cases h with
  | seq _ writable => exact draftAll_spellable fun node mem => (writable node mem).draft_spellable

/-- The source of a concrete tree spells its written form. -/
theorem Concrete.spells_source {tree : Node} (h : tree.Concrete) :
    Spells tree.source.toList tree.program.words := by
  have each : ∀ part ∈ tree.program.words.map fun w => (w, [' ']),
      Lexeme part.1.kind part.1.text.toList ∧ Separator part.2 := by
    rw [List.forall_mem_map]
    intro w mem
    exact ⟨h.spellable w.token (List.mem_map_of_mem mem), .blank (by decide) .nil⟩
  have spells := spells_layout .nil each
  rw [List.map_map] at spells
  rw [source, String.toList_ofList]
  simpa [Function.comp_def] using spells

/-- Within the limits the written form of a concrete tree derives it. -/
theorem Concrete.derives {tree : Node} (h : tree.Concrete)
    (fits : tree.program.Fits maxOperators maxNesting) : Derives tree.program.words tree := by
  cases h with
  | seq typed writable =>
      refine .whole (draftAll_derives (fun node mem _ => ?_) fits)
      exact (typed node mem).derives (writable node mem)

end Node

end WhenLoop
