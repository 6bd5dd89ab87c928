import WhenLoop.Proofs.Writing

/-!
# Reading undoes writing

The source of a concrete tree is read back as the tree exactly if its written form is within the
limits (`readProgram_round_trip`).  That it is read back within the limits has been seen.  The
other direction says that the measures of a draft are not too large: every derivation of a tree
from its written form has at least these levels and operators (`Statements.fits`).

A derivation could split the words in another way than they were put together.  It does not,
since what is known of the parts tells where they end.  A phrase closes no parenthesis that it
has not opened, and it has the operators of its tree (`Phrase.regular`, `Phrase.operators_eq`).
A statement has the words outside of expressions and conditions that its tree has
(`Statement.count_eq`), and it ends in one of them.
-/

namespace WhenLoop

namespace Grammar

/-! ## Parentheses and operators -/

/-- The depth of parentheses behind a token.  There is none if a parenthesis is closed that is
not open. -/
def depthBehind (depth : Nat) (t : Token) : Option Nat :=
  match t.kind, depth with
  | .openParen, depth => some (depth + 1)
  | .closeParen, 0 => none
  | .closeParen, depth + 1 => some depth
  | _, depth => some depth

/-- Every parenthesis in the tokens is opened and closed in them. -/
def Balanced (ts : List Token) : Prop := ∀ depth, ts.foldlM depthBehind depth = some depth

/-- How many of the tokens are of a sort. -/
def count (p : TokenKind → Bool) (ts : List Token) : Nat := ts.countP (p ·.kind)

variable {p : TokenKind → Bool}

@[simp]
theorem count_nil : count p [] = 0 := rfl

@[simp]
theorem count_cons (t : Token) (ts : List Token) :
    count p (t :: ts) = count p ts + (p t.kind).toNat := by
  cases sort : p t.kind <;> simp [count, sort]

@[simp]
theorem count_append (ts us : List Token) : count p (ts ++ us) = count p ts + count p us :=
  List.countP_append

/-- The signs and words between and before operands. -/
def operatorKinds : List TokenKind :=
  [.plus, .minus, .star, .slash, .percent, .assign, .equal, .less, .greater, .lessEqual,
   .greaterEqual, .and, .or, .not]

/-- Whether tokens of the kind are operators, inside a phrase. -/
def isOperator (kind : TokenKind) : Bool := kind ∈ operatorKinds

/-- What a phrase is made of. -/
def phraseKinds : List TokenKind :=
  .number :: .name :: .openParen :: .closeParen :: operatorKinds

theorem ne_of_isOperator {t : Token} (sign : isOperator t.kind = true) {kind : TokenKind}
    (other : kind ∉ operatorKinds) : t.kind ≠ kind := by
  rintro rfl
  exact other (of_decide_eq_true sign)

theorem depthBehind_other {t : Token} (opens : t.kind ≠ .openParen) (closes : t.kind ≠ .closeParen)
    (depth : Nat) : depthBehind depth t = some depth := by
  unfold depthBehind
  split
  next kind => exact absurd kind opens
  next kind => exact absurd kind closes
  next kind => exact absurd kind closes
  next => rfl

theorem depthBehind_open {t : Token} (opens : t.kind = .openParen) (depth : Nat) :
    depthBehind depth t = some (depth + 1) := by
  simp [depthBehind, opens]

theorem depthBehind_operator {t : Token} (sign : isOperator t.kind = true) (depth : Nat) :
    depthBehind depth t = some depth :=
  depthBehind_other (ne_of_isOperator sign (by decide)) (ne_of_isOperator sign (by decide)) depth

/-- Behind balanced tokens there is nothing to close. -/
theorem Balanced.append_close {ts : List Token} (h : Balanced ts) {r : Token}
    (kind : r.kind = .closeParen) (us : List Token) : ¬ Balanced (ts ++ r :: us) := by
  intro balanced
  have behind := balanced 0
  rw [List.foldlM_append, h 0] at behind
  simp [depthBehind, kind] at behind

/-- Where a list is split at two tokens, neither part before them goes past the other. -/
theorem split_eq {xs ys us vs : List Token} {t t' : Token} (h : xs ++ t :: us = ys ++ t' :: vs)
    (hx : ∀ as, ys ≠ xs ++ t :: as) (hy : ∀ as, xs ≠ ys ++ t' :: as) : xs = ys ∧ us = vs := by
  rcases List.append_eq_append_iff.mp h with ⟨as, rfl, rest⟩ | ⟨as, rfl, rest⟩
  · cases as with
    | nil => simp_all
    | cons a as =>
        obtain ⟨rfl, -⟩ := List.cons.inj rest
        exact absurd rfl (hx as)
  · cases as with
    | nil => simp_all
    | cons a as =>
        obtain ⟨rfl, -⟩ := List.cons.inj rest
        exact absurd rfl (hy as)

/-- The first parenthesis that is closed behind balanced tokens tells where they end. -/
theorem Balanced.closing {xs ys us vs : List Token} {r r' : Token} (hx : Balanced xs)
    (hy : Balanced ys) (kind : r.kind = .closeParen) (kind' : r'.kind = .closeParen)
    (h : xs ++ r :: us = ys ++ r' :: vs) : xs = ys ∧ us = vs := by
  refine split_eq h ?_ ?_
  · rintro as rfl
    exact hx.append_close kind as hy
  · rintro as rfl
    exact hy.append_close kind' as hx

/-- A token of some sort tells where the tokens before it end if it is known how many of the
sort are among them. -/
theorem split_of_count {xs ys us vs : List Token} {t t' : Token}
    (h : xs ++ t :: us = ys ++ t' :: vs) (sort : p t.kind = true) (sort' : p t'.kind = true)
    (same : count p xs = count p ys) : xs = ys ∧ us = vs := by
  refine split_eq h ?_ ?_
  · rintro as rfl
    rw [count_append, count_cons, sort, Bool.toNat_true] at same
    omega
  · rintro as rfl
    rw [count_append, count_cons, sort', Bool.toNat_true] at same
    omega

/-- What can be told of the tokens of a phrase with `k` operators. -/
structure Regular (ts : List Token) (k : Nat) : Prop where
  /-- Every parenthesis in them is opened and closed in them. -/
  balanced : Balanced ts
  /-- They have the operators of the phrase. -/
  operators : count isOperator ts = k
  /-- There is nothing else in them than what phrases are made of. -/
  kinds : ∀ t ∈ ts, t.kind ∈ phraseKinds

namespace Regular

theorem nil : Regular [] 0 := ⟨fun _ => rfl, rfl, List.forall_mem_nil _⟩

theorem single {t : Token} (kind : t.kind = .number ∨ t.kind = .name) : Regular [t] 0 := by
  constructor
  · intro depth
    rcases kind with kind | kind <;> simp [depthBehind, kind]
  · rcases kind with kind | kind <;> simp [isOperator, kind, operatorKinds]
  · rcases kind with kind | kind <;> simp [kind, phraseKinds]

/-- A group opens a parenthesis and closes it, and has the operators of what it holds. -/
theorem group {l r : Token} {ts : List Token} {k : Nat} (opens : l.kind = .openParen)
    (h : Regular ts k) (closes : r.kind = .closeParen) : Regular (l :: ts ++ [r]) k := by
  constructor
  · intro depth
    simp [depthBehind, opens, closes, h.balanced (depth + 1)]
  · simp [h.operators, isOperator, opens, closes, operatorKinds]
  · have first : l.kind ∈ phraseKinds := by simp [opens, phraseKinds]
    have last : r.kind ∈ phraseKinds := by simp [closes, phraseKinds]
    simpa [first, last, or_imp, forall_and] using h.kinds

theorem before {op : Token} {ts : List Token} {k : Nat} (sign : isOperator op.kind = true)
    (h : Regular ts k) : Regular (op :: ts) (k + 1) := by
  constructor
  · intro depth
    simp [depthBehind_operator sign, h.balanced depth]
  · rw [count_cons, sign, Bool.toNat_true, h.operators]
  · exact List.forall_mem_cons.mpr ⟨by simp [phraseKinds, of_decide_eq_true sign], h.kinds⟩

/-- An operator between two phrases adds to those of both. -/
theorem between {op : Token} {ls rs : List Token} {j k : Nat} (hl : Regular ls j)
    (sign : isOperator op.kind = true) (hr : Regular rs k) :
    Regular (ls ++ op :: rs) (j + 1 + k) := by
  have right := hr.before sign
  constructor
  · intro depth
    rw [List.foldlM_append, hl.balanced depth]
    exact right.balanced depth
  · rw [count_append, hl.operators, right.operators]
    omega
  · exact List.forall_mem_append.mpr ⟨hl.kinds, right.kinds⟩

end Regular

theorem isOperator_of_mem {α : Type} {signs : List (TokenKind × α)} {op : Token} {sign : α}
    (h : (op.kind, sign) ∈ signs) (all : ∀ pair ∈ signs, pair.1 ∈ operatorKinds) :
    isOperator op.kind = true :=
  decide_eq_true (all _ h)

/-- By induction on the derivation. -/
theorem Phrase.regular {rank : Rank} {levels k : Nat} {ts : List Token} {node : Node}
    (h : Phrase rank levels k ts node) : Regular ts k := by
  induction h with
  | number kind => exact .single (.inl kind)
  | name kind => exact .single (.inr kind)
  | group opens _ closes ih => exact .group opens ih closes
  | ofPrimary _ ih => exact ih
  | negative sign _ _ ih => exact .before (congrArg isOperator sign) ih
  | ofUnary _ ih => exact ih
  | product _ sign _ _ _ ihl ihr => exact .between ihl (isOperator_of_mem sign (by decide)) ihr
  | ofFactor _ ih => exact ih
  | sum _ sign _ _ _ ihl ihr => exact .between ihl (isOperator_of_mem sign (by decide)) ihr
  | ofTerm _ ih => exact ih
  | compare _ sign _ _ _ ihl ihr => exact .between ihl (isOperator_of_mem sign (by decide)) ihr
  | ofComparison _ ih => exact ih
  | negation sign _ ih => exact .before (congrArg isOperator sign) ih
  | ofNot _ ih => exact ih
  | conjunction _ sign _ ihl ihr => exact .between ihl (congrArg isOperator sign) ihr
  | ofAnd _ ih => exact ih
  | disjunction _ sign _ ihl ihr => exact .between ihl (congrArg isOperator sign) ihr

end Grammar

open Grammar

theorem ArithOp.token_operator (op : ArithOp) : op.token ∈ operatorKinds := by
  cases op <;> decide

theorem CompareOp.token_operator (op : CompareOp) : op.token ∈ operatorKinds := by
  cases op <;> decide

namespace Node

@[simp]
theorem enclose_operators (node : Node) (d : Draft) : (node.enclose d).operators = d.operators := by
  rw [enclose]
  split <;> rfl

theorem enclose_regular (node : Node) {d : Draft} (h : Regular d.tokens d.operators) :
    Regular (node.enclose d).tokens (node.enclose d).operators := by
  rw [enclose]
  split
  · exact h
  · rw [Draft.tokens_group]
    exact .group rfl h rfl

/-- The written form is regular, also of a tree that is no phrase. -/
theorem phrase_regular (node : Node) : Regular node.phrase.tokens node.phrase.operators := by
  fun_induction phrase node with
  | case1 => exact .single (.inl rfl)
  | case2 => exact .single (.inr rfl)
  | case3 op left right ihl ihr =>
      rw [Draft.tokens_between]
      exact .between (enclose_regular left ihl) (decide_eq_true op.token_operator)
        (enclose_regular right ihr)
  | case4 operand ih => exact .before rfl (enclose_regular operand ih)
  | case5 op left right ihl ihr =>
      rw [Draft.tokens_between]
      exact .between (enclose_regular left ihl) (decide_eq_true op.token_operator)
        (enclose_regular right ihr)
  | case6 left right ihl ihr =>
      rw [Draft.tokens_between]
      exact .between (enclose_regular left ihl) rfl (enclose_regular right ihr)
  | case7 left right ihl ihr =>
      rw [Draft.tokens_between]
      exact .between (enclose_regular left ihl) rfl (enclose_regular right ihr)
  | case8 operand ih => exact .before rfl (enclose_regular operand ih)
  | case9 operand ih => exact ih
  | case10 => exact .nil

end Node

/-! ## Every derivation opens the levels of the written form -/

/-- A draft in `n` pairs of parentheses. -/
def Draft.groups (d : Draft) : Nat → Draft
  | 0 => d
  | n + 1 => (d.groups n).group

/-- All the opening parentheses stand in front, and the closing ones behind. -/
theorem Draft.groups_tokens (d : Draft) (n : Nat) :
    (d.groups n).tokens = List.replicate n (Word.mark .openParen).token ++ d.tokens ++
      List.replicate n (Word.mark .closeParen).token := by
  induction n with
  | zero => simp [groups]
  | succ n ih =>
      rw [groups, tokens_group, ih, List.replicate_succ, List.replicate_succ']
      simp

namespace Node

/-- A conversion is not written. -/
@[simp]
theorem phrase_asCondition (node : Node) : node.asCondition.phrase = node.phrase := by
  rw [asCondition]
  split <;> rfl

@[simp]
theorem enclose_asCondition (node : Node) (d : Draft) :
    node.asCondition.enclose d = node.enclose d := by
  cases node <;> rfl

/-- To enclose a draft is to put it in one pair of parentheses or none. -/
theorem enclose_eq_groups (node : Node) (d : Draft) : ∃ n, node.enclose d = d.groups n := by
  rw [enclose]
  split
  · exact ⟨0, rfl⟩
  · exact ⟨1, rfl⟩

end Node

namespace Grammar

open Node

/-- By induction on the derivation: the draft of the tree has the operators that were derived. -/
theorem Phrase.operators_eq {rank : Rank} {levels k : Nat} {ts : List Token} {node : Node}
    (h : Phrase rank levels k ts node) : node.phrase.operators = k := by
  induction h with
  | number => rfl
  | name => rfl
  | negative _ _ _ ih => simp [phrase, Draft.before, ih]
  | product _ _ _ _ _ ihl ihr => simp [phrase, Draft.between, ihl, ihr]
  | sum _ _ _ _ _ ihl ihr => simp [phrase, Draft.between, ihl, ihr]
  | compare _ _ _ _ _ ihl ihr => simp [phrase, Draft.between, ihl, ihr]
  | negation _ _ ih => simp [phrase, Draft.before, ih]
  | conjunction _ _ _ ihl ihr => simp [phrase, Draft.between, ihl, ihr]
  | disjunction _ _ _ ihl ihr => simp [phrase, Draft.between, ihl, ihr]
  | group _ _ _ ih => exact ih
  | ofPrimary _ ih => exact ih
  | ofUnary _ ih => exact ih
  | ofFactor _ ih => exact ih
  | ofTerm _ ih => exact ih
  | ofComparison _ ih => exact ih
  | ofNot _ ih => exact ih
  | ofAnd _ ih => exact ih

/-- If the tokens are the draft, in any number of parentheses, then it opens at most `levels`
levels. -/
def Covers (levels : Nat) (ts : List Token) (d : Draft) : Prop :=
  ∀ n, ts = (d.groups n).tokens → (d.groups n).levels ≤ levels

/-- If the tokens are the enclosed draft itself, that opens no more levels than they do. -/
theorem Covers.enclose {levels : Nat} {node : Node} {d : Draft}
    (h : Covers levels (node.enclose d).tokens d) : (node.enclose d).levels ≤ levels := by
  obtain ⟨n, same⟩ := enclose_eq_groups node d
  rw [same] at h ⊢
  exact h n rfl

theorem foldlM_opens (n depth : Nat) :
    (List.replicate n (Word.mark .openParen).token).foldlM depthBehind depth
      = some (depth + n) := by
  induction n generalizing depth with
  | zero => rfl
  | succ n ih =>
      rw [List.replicate_succ, List.foldlM_cons, depthBehind_open rfl]
      exact (ih (depth + 1)).trans (by rw [Nat.add_assoc, Nat.add_comm 1])

theorem count_opens (n : Nat) :
    count isOperator (List.replicate n (Word.mark .openParen).token) = 0 := by
  induction n with
  | zero => rfl
  | succ n ih => exact ih

/-- The operators of the left part tell where the derivation splits the tokens, and the
parentheses of the left part tell that there are none around the whole. -/
theorem Covers.between {levels : Nat} {op : Token} {sign : TokenKind} {ls rs : List Token}
    {rank : Rank} {j : Nat} {left right : Node} (phrase : Phrase rank levels j ls left)
    (operator : isOperator op.kind = true) (operator' : sign ∈ operatorKinds)
    (hl : Covers levels ls left.phrase) (hr : Covers levels rs right.phrase) :
    Covers levels (ls ++ op :: rs)
      (.between sign (left.enclose left.phrase) (right.enclose right.phrase)) := by
  intro n same
  have written := enclose_regular left (phrase_regular left)
  rw [Draft.groups_tokens, Draft.tokens_between] at same
  simp only [List.append_assoc, List.cons_append] at same
  rw [← List.append_assoc] at same
  have operators : count isOperator ls = count isOperator
      (List.replicate n (Word.mark .openParen).token ++ (left.enclose left.phrase).tokens) := by
    rw [phrase.regular.operators, count_append, count_opens, written.operators, enclose_operators,
      phrase.operators_eq, Nat.zero_add]
  obtain ⟨rfl, rfl⟩ := split_of_count same operator (decide_eq_true operator') operators
  -- the left part is a phrase of its own, so it opens no parenthesis that the right part closes
  have depth := phrase.regular.balanced 0
  rw [List.foldlM_append, foldlM_opens] at depth
  have none : n = 0 := by simpa [written.balanced n] using depth
  subst none
  simp only [List.replicate_zero, List.nil_append, List.append_nil] at hl hr
  exact Nat.max_le.mpr ⟨hl.enclose, hr.enclose⟩

/-- An operator is no parenthesis, so there are none around it, and its operand is covered by the
tokens behind it. -/
theorem Covers.before {levels : Nat} {op : Token} {sign : TokenKind} {ts : List Token}
    {operand : Node} (operator : isOperator op.kind = true) (h : Covers levels ts operand.phrase) :
    Covers (levels + 1) (op :: ts) (.before sign (operand.enclose operand.phrase)) := by
  intro n same
  cases n with
  | zero =>
      obtain ⟨-, rfl⟩ := List.cons.inj same
      exact Nat.succ_le_succ h.enclose
  | succ n =>
      rw [Draft.groups, Draft.tokens_group] at same
      obtain ⟨rfl, -⟩ := List.cons.inj same
      exact absurd operator (by decide)

/-- An atom is one token, and no parenthesis. -/
theorem atom_tokens {node : Node} (atom : node.isAtom = true) :
    ∃ t, node.phrase.tokens = [t] ∧ t.kind ≠ .openParen := by
  revert atom
  fun_cases isAtom node with
  | case1 => exact fun _ => ⟨_, rfl, nofun⟩
  | case2 => exact fun _ => ⟨_, rfl, nofun⟩
  | case3 => exact fun _ => ⟨_, rfl, nofun⟩
  | case4 => exact fun _ => ⟨_, rfl, nofun⟩
  | case5 => exact nofun

/-- No operator stands behind a phrase in parentheses. -/
theorem between_ne_group {l r : Token} {ts : List Token} (opens : l.kind = .openParen)
    (closes : r.kind = .closeParen) (balanced : Balanced ts) (sign : TokenKind) (left : Node)
    (right : Draft) :
    (Draft.between sign (left.enclose left.phrase) right).tokens ≠ l :: ts ++ [r] := by
  intro same
  rw [Draft.tokens_between, enclose] at same
  split at same
  next atom =>
    obtain ⟨t, single, other⟩ := atom_tokens atom
    rw [single] at same
    obtain ⟨rfl, -⟩ := List.cons.inj same
    exact other opens
  next =>
    rw [Draft.tokens_group] at same
    simp only [List.cons_append, List.append_assoc, List.nil_append] at same
    obtain ⟨-, same⟩ := List.cons.inj same
    have inner := (phrase_regular left).balanced
    obtain ⟨-, nothing⟩ := inner.closing balanced rfl closes same
    cases nothing

/-- No written form is a phrase in parentheses. -/
theorem phrase_ne_group {l r : Token} {ts : List Token} (opens : l.kind = .openParen)
    (closes : r.kind = .closeParen) (balanced : Balanced ts) (node : Node) :
    node.phrase.tokens ≠ l :: ts ++ [r] := by
  fun_induction phrase node with
  | case1 => simp
  | case2 => simp
  | case3 op left right => exact between_ne_group opens closes balanced _ left _
  | case4 operand =>
      intro same
      obtain ⟨rfl, -⟩ := List.cons.inj same
      cases opens
  | case5 op left right => exact between_ne_group opens closes balanced _ left _
  | case6 left right => exact between_ne_group opens closes balanced _ left _
  | case7 left right => exact between_ne_group opens closes balanced _ left _
  | case8 operand =>
      intro same
      obtain ⟨rfl, -⟩ := List.cons.inj same
      cases opens
  | case9 operand ih => exact ih
  | case10 => exact List.cons_ne_nil _ _ ∘ Eq.symm

/-- The parentheses that were read are the outer ones around the draft, since the draft alone is no
group. -/
theorem Covers.group {levels : Nat} {l r : Token} {ts : List Token} {node : Node}
    (opens : l.kind = .openParen) (closes : r.kind = .closeParen) (balanced : Balanced ts)
    (h : Covers levels ts node.phrase) : Covers (levels + 1) (l :: ts ++ [r]) node.phrase := by
  intro n same
  cases n with
  | zero => exact absurd same.symm (phrase_ne_group opens closes balanced node)
  | succ n =>
      rw [Draft.groups, Draft.tokens_group] at same
      obtain ⟨-, same⟩ := List.cons.inj same
      obtain ⟨same, -⟩ := List.append_inj' same rfl
      exact Nat.succ_le_succ (h n same)

theorem Covers.word (levels : Nat) (t : Token) (w : Word) : Covers levels [t] (.word w) := by
  intro n same
  cases n with
  | zero => exact Nat.zero_le _
  | succ n =>
      rw [Draft.groups, Draft.tokens_group] at same
      simp at same

/-- The levels of a derivation are enough for the written form of its tree wherever the written
form is what it derives the tree from. -/
theorem Phrase.covers {rank : Rank} {levels k : Nat} {ts : List Token} {node : Node}
    (h : Phrase rank levels k ts node) : Covers levels ts node.phrase := by
  induction h with
  | number => exact .word _ _ _
  | name => exact .word _ _ _
  -- the one rule that may read parentheses of the writer as its own
  | group opens phrase closes ih => exact .group opens closes phrase.regular.balanced ih
  | negative sign _ _ ih => exact .before (congrArg isOperator sign) ih
  | @product _ _ _ _ op _ _ _ _ left sign _ _ _ ihl ihr =>
      exact .between left (isOperator_of_mem sign (by decide)) op.token_operator ihl ihr
  | @sum _ _ _ _ op _ _ _ _ left sign _ _ _ ihl ihr =>
      exact .between left (isOperator_of_mem sign (by decide)) op.token_operator ihl ihr
  | @compare _ _ _ _ op _ _ _ _ left sign _ _ _ ihl ihr =>
      exact .between left (isOperator_of_mem sign (by decide)) op.token_operator ihl ihr
  | negation sign _ ih =>
      rw [phrase, phrase_asCondition, enclose_asCondition]
      exact .before (congrArg isOperator sign) ih
  | conjunction left sign _ ihl ihr =>
      rw [phrase, phrase_asCondition, enclose_asCondition, phrase_asCondition, enclose_asCondition]
      exact .between left (congrArg isOperator sign) (by decide) ihl ihr
  | disjunction left sign _ ihl ihr =>
      rw [phrase, phrase_asCondition, enclose_asCondition, phrase_asCondition, enclose_asCondition]
      exact .between left (congrArg isOperator sign) (by decide) ihl ihr
  | ofPrimary _ ih => exact ih
  | ofUnary _ ih => exact ih
  | ofFactor _ ih => exact ih
  | ofTerm _ ih => exact ih
  | ofComparison _ ih => exact ih
  | ofNot _ ih => exact ih
  | ofAnd _ ih => exact ih

/-- An expression that was derived from its own draft fits the limits it was derived within. -/
theorem Expression.fits {most levels : Nat} {ts : List Token} {node : Node}
    (h : Expression most levels ts node) (same : ts = node.phrase.tokens) :
    node.phrase.nested.Fits most levels := by
  cases h with
  | whole phrase le _ =>
      exact Draft.fits_nested.mpr ⟨phrase.covers 0 same, phrase.operators_eq ▸ le⟩

/-- A condition that was derived from its own draft fits too, since its conversion is not
written. -/
theorem Condition.fits {most levels : Nat} {ts : List Token} {node : Node}
    (h : Condition most levels ts node) (same : ts = node.phrase.tokens) :
    node.phrase.nested.Fits most levels := by
  cases h with
  | whole phrase le =>
      rw [phrase_asCondition] at same ⊢
      exact Draft.fits_nested.mpr ⟨phrase.covers 0 same, phrase.operators_eq ▸ le⟩

/-! ## Where statements end -/

/-- There is no token of a sort in a phrase if phrases are made of others. -/
theorem Regular.count_eq (outer : ∀ kind ∈ phraseKinds, p kind = false) {ts : List Token} {k : Nat}
    (h : Regular ts k) : count p ts = 0 := by
  refine List.countP_eq_zero.mpr fun t mem => ?_
  rw [outer _ (h.kinds t mem)]
  exact Bool.false_ne_true

/-- Tokens of kinds that no phrase has are counted alike, there being none. -/
theorem Expression.count_eq (outer : ∀ kind ∈ phraseKinds, p kind = false) {most levels : Nat}
    {ts : List Token} {node : Node} (h : Expression most levels ts node) :
    count p ts = count p node.phrase.tokens := by
  cases h with
  | whole phrase =>
      rw [phrase.regular.count_eq outer, (phrase_regular node).count_eq outer]

theorem Condition.regular {most levels : Nat} {ts : List Token} {node : Node}
    (h : Condition most levels ts node) : ∃ k, Regular ts k := by
  cases h with
  | whole phrase => exact ⟨_, phrase.regular⟩

theorem Condition.count_eq (outer : ∀ kind ∈ phraseKinds, p kind = false) {most levels : Nat}
    {ts : List Token} {node : Node} (h : Condition most levels ts node) :
    count p ts = count p node.phrase.tokens := by
  obtain ⟨k, regular⟩ := h.regular
  rw [regular.count_eq outer, (phrase_regular node).count_eq outer]

mutual

/-- A tree tells the words of its statement but for those of expressions and conditions. -/
theorem Statement.count_eq {most : Nat} (outer : ∀ kind ∈ phraseKinds, p kind = false) :
    ∀ {levels : Nat} {ts : List Token} {node : Node}, Statement most levels ts node →
      count p ts = count p node.draft.tokens
  | _, _, _, .assign ht hs h he => by simp [tokens_assign, ht, hs, he, h.count_eq outer]
  | _, _, _, .out hw h he => by simp [tokens_out, hw, he, h.count_eq outer]
  | _, _, _, .when hw hl h hr hb => by
      simp [tokens_when, hw, hl, hr, h.count_eq outer, hb.count_eq outer]
  | _, _, _, .whenElse hw hl h hr hb _ ho hb' => by
      simp [tokens_whenElse, hw, hl, hr, ho, h.count_eq outer, hb.count_eq outer,
        hb'.count_eq outer]
  | _, _, _, .loop hw hl h hr hb => by
      simp [tokens_loop, hw, hl, hr, h.count_eq outer, hb.count_eq outer]
  | _, _, _, .block hl hs hr => by simp [tokens_seq, hl, hr, hs.count_eq outer]

theorem Statements.count_eq {most : Nat} (outer : ∀ kind ∈ phraseKinds, p kind = false) :
    ∀ {levels : Nat} {ts : List Token} {nodes : List Node}, Statements most levels ts nodes →
      count p ts = count p (draftAll nodes).tokens
  | _, _, _, .nil => rfl
  | _, _, _, .cons h hs => by simp [draftAll, h.count_eq outer, hs.count_eq outer]

end

/-- Whether the token ends a statement. -/
def endsStatement (kind : TokenKind) : Bool := kind == .semicolon || kind == .closeBrace

/-- The tokens end where a statement may end. -/
def Ended (ts : List Token) : Prop := ∃ us t, ts = us ++ [t] ∧ endsStatement t.kind = true

theorem Ended.prepend {ts : List Token} (h : Ended ts) (us : List Token) : Ended (us ++ ts) := by
  obtain ⟨vs, t, rfl, ends⟩ := h
  exact ⟨us ++ vs, t, (List.append_assoc ..).symm, ends⟩

/-- A statement ends with a semicolon or a brace, or as its last part does. -/
theorem Statement.ended {most : Nat} : ∀ {levels : Nat} {ts : List Token} {node : Node},
    Statement most levels ts node → Ended ts
  | _, _, _, .assign _ _ _ he => ⟨_, _, rfl, congrArg endsStatement he⟩
  | _, _, _, .out _ _ he => ⟨_, _, rfl, congrArg endsStatement he⟩
  | _, _, _, .when _ _ _ _ hb => (hb.ended.prepend [_]).prepend _
  | _, _, _, .whenElse _ _ _ _ _ _ _ hb' => (hb'.ended.prepend [_]).prepend _
  | _, _, _, .loop _ _ _ _ hb => (hb.ended.prepend [_]).prepend _
  | _, _, _, .block _ _ hr => ⟨_, _, rfl, congrArg endsStatement hr⟩

/-- The written form of a statement ends where it may end. -/
theorem draft_ended {node : Node} (h : node.IsStatement) : Ended node.draft.tokens := by
  induction h with
  | assign => exact ⟨_, _, tokens_assign _ _, rfl⟩
  | out => exact ⟨_, _, tokens_out _, rfl⟩
  | when _ _ ih =>
      rw [tokens_when]
      exact (ih.prepend [_]).prepend _
  | whenElse _ _ _ _ ih =>
      rw [tokens_whenElse]
      exact (ih.prepend [_]).prepend _
  | loop _ _ ih =>
      rw [tokens_loop]
      exact (ih.prepend [_]).prepend _
  | seq => exact ⟨_, _, tokens_seq _, rfl⟩

/-! ## Every derivation has the measures of the written form -/

section

variable {most levels : Nat} {ts us vs : List Token} {node : Node}

/-- A condition ends at the parenthesis that the statement around it closes. -/
theorem Condition.closing {r : Token} (h : Condition most levels ts node)
    (closes : r.kind = .closeParen)
    (same : ts ++ r :: us = node.phrase.tokens ++ (Word.mark .closeParen).token :: vs) :
    node.phrase.nested.Fits most levels ∧ us = vs := by
  obtain ⟨k, regular⟩ := h.regular
  obtain ⟨test, rest⟩ := regular.balanced.closing (phrase_regular node).balanced closes rfl same
  exact ⟨h.fits test, rest⟩

/-- The statement before an `else` ends where all its own have gone by. -/
theorem Statement.before_else {other : Token} (h : Statement most levels ts node)
    (kind : other.kind = .otherwise)
    (same : ts ++ other :: us = node.draft.tokens ++ (Word.mark .otherwise).token :: vs) :
    ts = node.draft.tokens ∧ us = vs := by
  have count := h.count_eq (p := (· == .otherwise)) (by decide)
  exact split_of_count same (congrArg (· == TokenKind.otherwise) kind) rfl count

/-- A statement ends with the last of its semicolons and braces. -/
theorem Statement.before_next (h : Statement most levels ts node)
    (same : ts ++ us = node.draft.tokens ++ vs) : ts = node.draft.tokens ∧ us = vs := by
  have count := h.count_eq (p := endsStatement) (by decide)
  obtain ⟨xs, t, rfl, ends⟩ := h.ended
  obtain ⟨ys, t', written, ends'⟩ := draft_ended h.typed
  rw [written] at same count ⊢
  rw [count_append, count_append, count_cons, count_cons, ends, ends'] at count
  rw [List.append_assoc, List.append_assoc] at same
  obtain ⟨rfl, rfl⟩ := split_of_count same ends ends' (Nat.add_right_cancel count)
  obtain ⟨rfl, -⟩ := List.cons.inj (List.append_cancel_left same)
  exact ⟨rfl, rfl⟩

end

mutual

/-- A statement that is derived from its written form fits where the derivation does. -/
theorem Statement.fits {most : Nat} : ∀ {levels : Nat} {ts : List Token} {node : Node},
    Statement most levels ts node → ts = node.draft.tokens → node.draft.Fits most levels
  | _, _, _, .assign _ _ h _, same => by
      rw [tokens_assign] at same
      have value := h.fits (List.append_inj' (List.cons.inj (List.cons.inj same).2).2 rfl).1
      simp [draft, value]
  | _, _, _, .out _ h _, same => by
      rw [tokens_out] at same
      have value := h.fits (List.append_inj' (List.cons.inj same).2 rfl).1
      simp [draft, value]
  | _, _, _, .when _ _ h hr hb, same => by
      rw [tokens_when] at same
      obtain ⟨test, branch⟩ := h.closing hr (List.cons.inj (List.cons.inj same).2).2
      simp [draft, guarding, test, hb.fits branch]
  | _, _, _, .whenElse _ _ h hr hb _ ho hb', same => by
      rw [tokens_whenElse, List.append_assoc, List.append_assoc] at same
      obtain ⟨test, branches⟩ := h.closing hr (List.cons.inj (List.cons.inj same).2).2
      obtain ⟨first, second⟩ := hb.before_else ho branches
      simp [draft, guarding, test, hb.fits first, hb'.fits second]
  | _, _, _, .loop _ _ h hr hb, same => by
      rw [tokens_loop] at same
      obtain ⟨test, body⟩ := h.closing hr (List.cons.inj (List.cons.inj same).2).2
      simp [draft, guarding, test, hb.fits body]
  | _, _, _, .block _ hs _, same => by
      rw [tokens_seq] at same
      have body := hs.fits (List.append_inj' (List.cons.inj same).2 rfl).1
      simp [draft, body]

/-- By recursion on the derivation.  The tokens of the first statement are those of its draft, and
the others those of the rest. -/
theorem Statements.fits {most : Nat} :
    ∀ {levels : Nat} {ts : List Token} {nodes : List Node}, Statements most levels ts nodes →
      ts = (draftAll nodes).tokens → (draftAll nodes).Fits most levels
  | _, _, _, .nil, _ => ⟨Nat.zero_le _, Nat.zero_le _⟩
  | _, _, _, .cons h hs, same => by
      rw [draftAll, Draft.tokens_append] at same
      obtain ⟨first, others⟩ := h.before_next same
      rw [draftAll]
      exact Draft.fits_append.mpr ⟨h.fits first, hs.fits others⟩

end

end Grammar

/-! ## Reading undoes writing -/

open Lexical

/-- A program that derives its own tree fits the limits. -/
theorem Derives.fits {tree : Node} (h : Derives tree.program.words tree) :
    tree.program.Fits maxOperators maxNesting := by
  cases h with
  | whole statements => exact statements.fits rfl

/-- A source that spells the written form of a concrete tree is read as the tree exactly if it is
within the limits. -/
theorem Node.Concrete.readProgram_iff {tree : Node} (h : tree.Concrete) {source : String}
    (spells : Spells source.toList tree.program.words) :
    readProgram source = .ok tree ↔ tree.program.Fits maxOperators maxNesting := by
  rw [readProgram_eq_ok_iff_words]
  constructor
  · rintro ⟨words, spells', derives⟩
    rw [spells'.unique spells] at derives
    exact derives.fits
  · intro fits
    exact ⟨_, spells, h.derives fits⟩

/-- The trees of accepted sources are concrete.  A concrete tree is read back from its source, and
from every other source with the same words, exactly if its written form is within the limits. -/
theorem readProgram_round_trip (tree : Node) :
    (∀ source, readProgram source = .ok tree → tree.Concrete) ∧
    (tree.Concrete →
      (tree.program.Fits 512 128 → readProgram tree.source = .ok tree) ∧
      ∀ source, Spells source.toList tree.program.words →
        (readProgram source = .ok tree ↔ tree.program.Fits 512 128)) := by
  refine ⟨fun source read => readProgram_concrete read, fun concrete => ⟨fun fits => ?_, ?_⟩⟩
  · exact (concrete.readProgram_iff concrete.spells_source).mpr fits
  · intro source spells
    exact concrete.readProgram_iff spells

/-- An `else` behind a loop, an integer as a test, a negative operand and a difference to the
right of another. -/
theorem readProgram_round_trip_else :
    ∃ tree : Node,
      tree = .seq [.when (.nonzero (.var "x"))
        (.loop (.not (.compare .lt (.var "x") (.neg (.num 1))))
          (.seq [.when (.nonzero (.var "y")) (.out (.var "y")) none]))
        (some (.assign "x" (.arith .sub (.num 3) (.arith .sub (.var "x") (.num 1)))))] ∧
      tree.source = "when ( x ) loop ( ! ( x < ( - 1 ) ) ) \x7b when ( y ) out y ; \x7d " ++
        "else x = 3 - ( x - 1 ) ; " ∧
      (tree.Concrete ∧ tree.program.Fits 512 128) ∧ readProgram tree.source = .ok tree := by
  have x : Lexeme .name "x".toList := @Lexeme.name 'x' [] (by decide) nofun (by decide)
  have y : Lexeme .name "y".toList := @Lexeme.name 'y' [] (by decide) nofun (by decide)
  have read : ∀ tree : Node, tree.Concrete ∧ tree.program.Fits 512 128 →
      (tree.Concrete ∧ tree.program.Fits 512 128) ∧ readProgram tree.source = .ok tree :=
    fun tree h => ⟨h, ((readProgram_round_trip tree).2 h.1).1 h.2⟩
  refine ⟨_, rfl, by decide +kernel, read _ ⟨.seq ?_ ?_, by decide, by decide⟩⟩
  · refine List.forall_mem_singleton.mpr ?_
    refine .whenElse (.nonzero .var) (.loop (.not (.compare .var (.neg .num))) (.seq ?_))
      (.assign (.arith .num (.arith .var .num)))
    exact List.forall_mem_singleton.mpr (.when (.nonzero .var) (.out .var))
  · refine List.forall_mem_singleton.mpr ?_
    refine .whenElse (.nonzero (.var x))
      (.loop (.not (.compare (.var x) (.neg (.num (by decide))))) (.seq ?_)) rfl
      (.assign x (.arith (.num (by decide)) (.arith (.var x) (.num (by decide)))))
    exact List.forall_mem_singleton.mpr (.when (.nonzero (.var y)) (.out (.var y)))

end WhenLoop
