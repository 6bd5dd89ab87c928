import WhenLoop.Proofs.Grammar
import WhenLoop.Proofs.Moves
import WhenLoop.Proofs.Operands
import WhenLoop.Proofs.Words

/-!
# One attempted statement in two places

An attempted statement starts like an assignment or an output.  Behind its first word come
arbitrary words that neither end a statement nor start another.  Then it ends with a semicolon, or
it breaks off at the end of a block (`Ending`).  Here it is read in two places at once, with
different sources behind it, and both readings go in lockstep (`Twins`).  They make the same
choices, so they give the same tree and report as much.

The point is that neither reading goes past the last word.  The token behind it starts another
statement or closes the block, and it is one at which every open construct ends: no operator, no
closing parenthesis and no semicolon.  So none goes on there.  A parser may only be started there,
to read an operand, and this is what `Progress.asks` tells.  Behind a semicolon no operand is asked
for: a parser may well step over it, when it stands where an operand has to, but then it has its
operand.  Of a statement that breaks off it has to be assumed.

A statement of few words passes neither limit.  Every level of nesting and every operator takes a
word, and so it is enough to count the words that are left.
-/

namespace WhenLoop

open State Grammar

/-! ## Attempted statements -/

/-- The kinds that may stand anywhere in an attempted statement. -/
def TokenKind.isPlain (kind : TokenKind) : Bool :=
  kind ∉ [.semicolon, .openBrace, .closeBrace, .when, .otherwise, .loop, .out]

/-- An assignment and an output are statements. -/
theorem mem_starts {kind : TokenKind} (simple : kind = .name ∨ kind = .out) : kind ∈ starts := by
  rcases simple with rfl | rfl <;> decide

theorem ne_semicolon_of_starts {kind : TokenKind} (start : kind ∈ starts) : kind ≠ .semicolon := by
  rintro rfl
  exact absurd start (by decide)

/-- How an attempted statement ends. -/
inductive Ending where
  /-- With a semicolon, before another statement. -/
  | semicolon
  /-- Without one, before the end of the block. -/
  | brace
deriving DecidableEq

/-- The kinds of the token behind it. -/
def Ending.follows : Ending → List TokenKind
  | semicolon => starts
  | brace => [.closeBrace]

/-- What is left of an attempted statement: nothing, or plain words, and then its semicolon if it
ends with one. -/
inductive Remains (ending : Ending) : List Word → Prop where
  | nothing : Remains ending []
  | stop {w : Word} : ending = .semicolon → w.kind = .semicolon → Remains ending [w]
  | plain {w : Word} {us : List Word} :
      w.kind.isPlain = true → (ending = .semicolon → us ≠ []) → Remains ending us →
      Remains ending (w :: us)

variable {ending : Ending} {w : Word} {us : List Word}

theorem Remains.tail (h : Remains ending (w :: us)) : Remains ending us := by
  cases h with
  | stop _ _ => exact .nothing
  | plain _ _ rest => exact rest

/-- The first word is plain, unless it is the semicolon. -/
theorem Remains.head (h : Remains ending (w :: us)) :
    w.kind.isPlain = true ∨ w.kind = .semicolon := by
  cases h with
  | stop _ kind => exact .inr kind
  | plain kind _ _ => exact .inl kind

/-- A semicolon is the last word, and no other is if the statement ends with one. -/
theorem Remains.semicolon_iff (h : Remains ending (w :: us)) :
    w.kind = .semicolon ↔ us = [] ∧ ending = .semicolon := by
  cases h with
  | stop ends kind => simp [kind, ends]
  | plain other more _ =>
      have ne : w.kind ≠ .semicolon := by
        intro same
        rw [same] at other
        cases other
      simp only [ne, false_iff, not_and]
      exact fun none ends => more ends none

/-- A statement that breaks off is left with plain words. -/
theorem remains_of_plain (h : ∀ w ∈ us, w.kind.isPlain = true) : Remains .brace us := by
  induction us with
  | nil => exact .nothing
  | cons w us ih =>
      obtain ⟨first, others⟩ := List.forall_mem_cons.mp h
      exact .plain first nofun (ih others)

/-- Plain words and a semicolon are all of a statement that ends with one. -/
theorem remains_semicolon {plain : List Word} {last : Word}
    (h : ∀ w ∈ plain, w.kind.isPlain = true) (ends : last.kind = .semicolon) :
    Remains .semicolon (plain ++ [last]) := by
  induction plain with
  | nil => exact .stop rfl ends
  | cons w plain ih =>
      obtain ⟨first, others⟩ := List.forall_mem_cons.mp h
      exact .plain first (fun _ => by simp) (ih others)

/-- No operand is asked for behind a semicolon. -/
theorem Remains.asks_eq_false (h : Remains .semicolon us) (some : us ≠ []) (progress : Progress) :
    progress.asks us = false := by
  induction h generalizing progress with
  | nothing => exact absurd rfl some
  | @stop w _ kind => exact progress.asks_concat [] (by simp [kind])
  | plain _ more _ ih => exact ih (more rfl) _

/-- A semicolon asks for nothing, so where it is the last word no operand is asked for behind the
words. -/
theorem Remains.asksBehind_eq_false (h : Remains .semicolon us) (some : us ≠ [])
    (first : TokenKind) : asksBehind first us = false := by
  rw [asksBehind]
  split
  · cases h with
    | nothing => exact absurd rfl some
    | @stop w _ kind =>
        rw [passing, if_neg (by simp [kind])]
        exact Progress.start.asks_concat [] (by simp [kind])
    | @plain w us plain more rest =>
        rw [passing]
        split
        · exact rest.asks_eq_false (more rfl) _
        · exact rest.asks_eq_false (more rfl) _
  · exact h.asks_eq_false some _

/-- The kinds at which no construct of a statement goes on. -/
def beyond : List TokenKind := .endOfInput :: .closeBrace :: starts

theorem Ending.follows_subset (ending : Ending) : ending.follows ⊆ beyond := by
  cases ending <;> simp [follows, beyond]

/-- Another statement starts, or nothing is left. -/
def Begins (rest : List Token) : Prop := ∀ t ts, rest = t :: ts → t.kind ∈ starts

theorem begins_nil : Begins [] := by
  rintro t ts ⟨⟩

/-- What is around a statement: how it has to end there, the tokens behind it, and how much was
reported before it. -/
structure Surroundings where
  ending : Ending
  rest : List Token
  follows : ∀ t ts, rest = t :: ts → t.kind ∈ ending.follows
  errors : Nat

/-! ## A statement in its surroundings -/

/-- The words `us` of the statement are left to read.  There is no panic before the first report,
so as long as the parse does not recover there is at most one. -/
structure Facing (c : Surroundings) (us : List Word) (s : State) : Prop where
  tokens : ∃ ts : List Token, ts.map Token.word = us ∧ s.upcoming = (ts ++ c.rest).map .token
  remains : Remains c.ending us
  previous : s.previous.kind = .semicolon ↔ us = [] ∧ c.ending = .semicolon
  finish : s.finish.kind = .endOfInput
  errors : s.errors = c.errors + s.panicking.toNat
  aborted : s.aborted = false

namespace Facing

variable {c : Surroundings} {s : State}

theorem current (h : Facing c (w :: us) s) : s.current.word = w := by
  obtain ⟨ts, words, upcoming⟩ := h.tokens
  obtain ⟨t, ts, rfl, word, -⟩ := List.map_eq_cons_iff.mp words
  rw [(advance_of_tokens upcoming).1, word]

theorem current_kind (h : Facing c (w :: us) s) : s.current.kind = w.kind :=
  congrArg Word.kind h.current

/-- With no word left the current token stands behind the statement. -/
theorem current_beyond (h : Facing c [] s) : s.current.kind ∈ beyond := by
  obtain ⟨ts, words, upcoming⟩ := h.tokens
  rw [List.map_eq_nil_iff.mp words, List.nil_append] at upcoming
  cases same : c.rest with
  | nil =>
      rw [State.current, upcoming, same]
      exact List.mem_cons.mpr (.inl h.finish)
  | cons t ts =>
      rw [same] at upcoming
      rw [(advance_of_tokens upcoming).1]
      exact c.ending.follows_subset (c.follows t ts same)

/-- A step takes the next word of the statement. -/
theorem advance (h : Facing c (w :: us) s) : Facing c us s.advance := by
  have word := h.current
  obtain ⟨ts, words, upcoming⟩ := h.tokens
  obtain ⟨t, ts, rfl, -, words⟩ := List.map_eq_cons_iff.mp words
  obtain ⟨current, step⟩ := advance_of_tokens upcoming
  rw [current] at word
  rw [step]
  refine ⟨⟨ts, words, rfl⟩, h.remains.tail, ?_, h.finish, h.errors, h.aborted⟩
  rw [← h.remains.semicolon_iff, ← word]
  rfl

/-- A word is no fault, so the step over it starts no panic. -/
theorem advance_panicking (h : Facing c (w :: us) s) : s.advance.panicking = s.panicking := by
  obtain ⟨ts, words, upcoming⟩ := h.tokens
  obtain ⟨t, ts, rfl, -, words⟩ := List.map_eq_cons_iff.mp words
  rw [(advance_of_tokens upcoming).2]

/-- The first report starts the panic, and in panic there is none. -/
theorem report (h : Facing c us s) (r : Report) : Facing c us (s.report r) := by
  rw [State.report]
  split
  · exact h
  · rename_i calm
    refine ⟨h.tokens, h.remains, h.previous, h.finish, ?_, h.aborted⟩
    have errors := h.errors
    rw [eq_false_of_ne_true calm] at errors
    exact congrArg (· + 1) errors

theorem with_depth (h : Facing c us s) (depth : Nat) : Facing c us { s with depth := depth } :=
  ⟨h.tokens, h.remains, h.previous, h.finish, h.errors, h.aborted⟩

theorem with_operators (h : Facing c us s) (operators : Nat) :
    Facing c us { s with operators := operators } :=
  ⟨h.tokens, h.remains, h.previous, h.finish, h.errors, h.aborted⟩

end Facing

/-! ## Two places in lockstep -/

/-- The same statement in two places, where as much of it is left and either both are in panic or
neither is. -/
structure Twins (c c' : Surroundings) (us : List Word) (s t : State) : Prop where
  left : Facing c us s
  right : Facing c' us t
  panicking : s.panicking = t.panicking

variable {c c' : Surroundings} {s t s' t' : State}

namespace Twins

theorem advance (h : Twins c c' (w :: us) s t) : Twins c c' us s.advance t.advance where
  left := h.left.advance
  right := h.right.advance
  panicking := by rw [h.left.advance_panicking, h.right.advance_panicking, h.panicking]

/-- Twins report together: both reports are made or neither is. -/
theorem report (h : Twins c c' us s t) (r r' : Report) :
    Twins c c' us (s.report r) (t.report r') where
  left := h.left.report r
  right := h.right.report r'
  panicking := by rw [report_panicking, report_panicking]

theorem with_depth (h : Twins c c' us s t) (depth depth' : Nat) :
    Twins c c' us { s with depth := depth } { t with depth := depth' } :=
  ⟨h.left.with_depth _, h.right.with_depth _, h.panicking⟩

theorem with_operators (h : Twins c c' us s t) (operators operators' : Nat) :
    Twins c c' us { s with operators := operators } { t with operators := operators' } :=
  ⟨h.left.with_operators _, h.right.with_operators _, h.panicking⟩

/-- Both step over the expected token, or both report that it is missing. -/
theorem expect (h : Twins c c' us s t) (kind : TokenKind) (inner : kind ∉ beyond)
    (problem : Problem) :
    Twins c c' (passing kind us) (s.expect kind problem) (t.expect kind problem) ∧
      (kind = .semicolon → passing kind us = [] ∧ c.ending = .semicolon ∨
        (s.expect kind problem).panicking = true) := by
  rw [State.expect, State.expect]
  cases us with
  | nil =>
      have other : s.current.kind ≠ kind := fun same => inner (same ▸ h.left.current_beyond)
      have other' : t.current.kind ≠ kind := fun same => inner (same ▸ h.right.current_beyond)
      rw [if_neg other, if_neg other']
      exact ⟨h.report _ _, fun _ => .inr (report_panicking ..)⟩
  | cons w us =>
      rw [h.left.current_kind, h.right.current_kind, passing]
      split
      · rename_i same
        refine ⟨h.advance, fun stop => .inl ?_⟩
        exact h.left.remains.semicolon_iff.mp (same.trans stop)
      · exact ⟨h.report _ _, fun _ => .inr (report_panicking ..)⟩

end Twins

/-- Twins inside one expression.  They have counted as many operators, and each operator up to the
limit has a word left. -/
structure Abreast (c c' : Surroundings) (us : List Word) (s t : State) : Prop
    extends Twins c c' us s t where
  operators : s.operators = t.operators
  within : s.operators + us.length ≤ maxOperators

namespace Abreast

/-- What does not count operators keeps twins abreast. -/
theorem of_twins {us' : List Word} (h : Abreast c c' us s t) (twins : Twins c c' us' s' t')
    (less : us'.length ≤ us.length) (same : s'.operators = s.operators)
    (same' : t'.operators = t.operators) : Abreast c c' us' s' t' where
  toTwins := twins
  operators := by rw [same, same', h.operators]
  within := by
    have within := h.within
    rw [same]
    omega

theorem advance (h : Abreast c c' (w :: us) s t) : Abreast c c' us s.advance t.advance :=
  h.of_twins h.toTwins.advance (Nat.le_succ _) (advance_operators s) (advance_operators t)

theorem report (h : Abreast c c' us s t) (r r' : Report) :
    Abreast c c' us (s.report r) (t.report r') :=
  h.of_twins (h.toTwins.report r r') (Nat.le_refl _) (report_operators s r) (report_operators t r')

theorem with_depth (h : Abreast c c' us s t) (depth depth' : Nat) :
    Abreast c c' us { s with depth := depth } { t with depth := depth' } :=
  h.of_twins (h.toTwins.with_depth depth depth') (Nat.le_refl _) rfl rfl

/-- The check on a condition reads the tree, which is the same for both. -/
theorem reportCondition (h : Abreast c c' us s t) (problem : Problem) (node : Node) :
    Abreast c c' us (s.reportCondition problem node) (t.reportCondition problem node) := by
  rw [State.reportCondition, State.reportCondition]
  split
  · exact h.report _ _
  · exact h

theorem checkOperand (h : Abreast c c' us s t) (rung : Rung) (node : Node) :
    Abreast c c' us (rung.checkOperand s node) (rung.checkOperand t node) := by
  rw [Rung.checkOperand, Rung.checkOperand]
  split
  · exact h.reportCondition _ _
  · exact h

/-- Both find the end of a group, or both report that it is missing. -/
theorem expect_closeParen (h : Abreast c c' us s t) (problem : Problem) :
    Abreast c c' (passing .closeParen us) (s.expect .closeParen problem)
      (t.expect .closeParen problem) := by
  obtain ⟨twins, -⟩ := h.toTwins.expect .closeParen (by decide) problem
  exact h.of_twins twins (length_passing_le _ us) (expect_operators ..) (expect_operators ..)

/-- Both find the semicolon of the statement, or both are in panic. -/
theorem expect_semicolon (h : Abreast c c' us s t) (problem : Problem) :
    ∃ us', Abreast c c' us' (s.expect .semicolon problem) (t.expect .semicolon problem) ∧
      (us' = [] ∧ c.ending = .semicolon ∨ (s.expect .semicolon problem).panicking = true) := by
  obtain ⟨twins, last⟩ := h.toTwins.expect .semicolon (by decide) problem
  exact ⟨_, h.of_twins twins (length_passing_le _ us) (expect_operators ..) (expect_operators ..),
    last rfl⟩

/-- Both count an operator, and there is room for it. -/
theorem counted (h : Abreast c c' (w :: us) s t) (p : Parser) (node : Node) :
    p.counted node s.advance = p { s.advance with operators := s.operators + 1 } ∧
    p.counted node t.advance = p { t.advance with operators := s.operators + 1 } ∧
    Abreast c c' us { s.advance with operators := s.operators + 1 }
      { t.advance with operators := s.operators + 1 } := by
  have within := h.within
  rw [List.length_cons] at within
  have room : s.operators + 1 ≤ maxOperators := by omega
  refine ⟨?_, ?_, ⟨h.toTwins.advance.with_operators _ _, rfl, ?_⟩⟩
  · rw [Parser.counted, advance_operators]
    exact if_pos room
  · rw [Parser.counted, advance_operators, ← h.operators]
    exact if_pos room
  · simp only
    omega

end Abreast

/-! ## Parsers of expressions -/

/-- A place for a phrase in an expression. -/
structure Slot where
  /-- Whether a `not` may come first. -/
  negatable : Bool
  /-- Whether the group has its comparison before. -/
  before : Bool
  /-- Whether it has to be taken for having one behind. -/
  after : Bool
  /-- The rungs whose operators are all read. -/
  rungs : List Rung

namespace Slot

/-- A number, a name, a group or a negative. -/
def unit (compared : Bool) : Slot := ⟨false, compared, compared, []⟩

/-- Units that are multiplied. -/
def factors (compared : Bool) : Slot := ⟨false, compared, compared, [.product]⟩

/-- What stands on one side of a comparison. -/
def side (compared : Bool) : Slot := ⟨false, compared, compared, [.sum, .product]⟩

/-- A comparison. -/
def comparison : Slot := ⟨false, false, true, [.sum, .product]⟩

/-- A comparison with `not` before it. -/
def negated : Slot := ⟨true, false, true, [.sum, .product]⟩

/-- Conditions joined by `and`. -/
def conjunction : Slot := ⟨true, false, true, [.conjunction, .sum, .product]⟩

/-- All that a group holds. -/
def whole : Slot := ⟨true, false, true, [.disjunction, .conjunction, .sum, .product]⟩

end Slot

open Progress (Unjoined)

/-- Two readings give the same tree and leave off in lockstep, with at most so many words left.
No operand is asked for behind these, and none of them goes on with what was read. -/
def Agree (c c' : Surroundings) (slot : Slot) (outer : List Bool) (left : Nat)
    (first second : Node × State) : Prop :=
  first.1 = second.1 ∧ ∃ us, us.length ≤ left ∧ Abreast c c' us first.2 second.2 ∧
    (Progress.operator (slot.after :: outer)).asks us = false ∧ Unjoined slot.rungs us

theorem Agree.mono {slot : Slot} {outer : List Bool} {left more : Nat}
    {first second : Node × State} (h : Agree c c' slot outer left first second)
    (le : left ≤ more) : Agree c c' slot outer more first second := by
  obtain ⟨same, us, short, twins⟩ := h
  exact ⟨same, us, Nat.le_trans short le, twins⟩

/-- A parser takes at least a word and goes in lockstep, if fewer than `bound` words are left and
no operand is asked for behind them. -/
def Parser.Agrees (c c' : Surroundings) (bound : Nat) (slot : Slot) (p : Parser) : Prop :=
  ∀ ⦃w : Word⦄ ⦃us : List Word⦄ ⦃s t : State⦄ ⦃outer : List Bool⦄, us.length + 1 < bound →
    Abreast c c' (w :: us) s t →
    (Progress.operand slot.negatable (slot.before :: outer)).asks (w :: us) = false →
    Agree c c' slot outer us.length (p s) (p t)

variable {bound : Nat} {slot : Slot}

/-- The levels are opened and closed together. -/
theorem Parser.Agrees.nested {p : Parser} (h : p.Agrees c c' bound slot) :
    p.nested.Agrees c c' bound slot := by
  intro w us s t outer short twins quiet
  obtain ⟨same, us', less, twins', rest⟩ :=
    h short (twins.with_depth (s.depth + 1) (t.depth + 1)) quiet
  exact ⟨same, us', less, twins'.with_depth _ _, rest⟩

namespace Rung

/-- No operator of the rung stands behind a statement. -/
def Inner (rung : Rung) : Prop := ∀ kind ∈ beyond, rung.join? kind = none

theorem disjunction_inner : disjunction.Inner := by simp [Inner, beyond, starts, disjunction]
theorem conjunction_inner : conjunction.Inner := by simp [Inner, beyond, starts, conjunction]
theorem comparison_inner : comparison.Inner := by simp [Inner, beyond, starts, comparison]
theorem sum_inner : sum.Inner := by simp [Inner, beyond, starts, sum]
theorem product_inner : product.Inner := by simp [Inner, beyond, starts, product]

variable {rung : Rung} {operand : Parser}

/-- The operators of the rung stand behind a phrase in the slot, and ask for another such. -/
def Asks (rung : Rung) (slot : Slot) : Prop :=
  ∀ ⦃kind : TokenKind⦄ ⦃join : Node → Node → Node⦄ ⦃outer : List Bool⦄,
    rung.join? kind = some join →
    (Progress.operator (slot.after :: outer)).read kind
      = .operand slot.negatable (slot.before :: outer)

/-- In both places the chain goes on, or in neither. -/
theorem chain_cases (inner : rung.Inner) (twins : Abreast c c' us s t) :
    (rung.join? s.current.kind = none ∧ rung.join? t.current.kind = none ∧
      ∀ w ∈ us.head?, rung.join? w.kind = none) ∨
    ∃ w ws join, us = w :: ws ∧ rung.join? w.kind = some join ∧
      rung.join? s.current.kind = some join ∧ rung.join? t.current.kind = some join := by
  cases us with
  | nil =>
      exact .inl ⟨inner _ twins.left.current_beyond, inner _ twins.right.current_beyond, nofun⟩
  | cons w us =>
      rw [twins.left.current_kind, twins.right.current_kind]
      cases joins : rung.join? w.kind with
      | none =>
          refine .inl ⟨rfl, rfl, ?_⟩
          rintro _ ⟨⟩
          exact joins
      | some join => exact .inr ⟨w, us, join, rfl, joins, rfl, rfl⟩

/-- By recursion on the operators that may still come.  Either both see an operator and read the
same operand behind it, or neither does and both stop. -/
theorem chain_agrees (inner : rung.Inner) (asks : rung.Asks slot)
    (h : operand.Agrees c c' bound slot) :
    ∀ (most : Nat) (left : Node) {us : List Word} {s t : State} {outer : List Bool},
      us.length < bound → us.length ≤ most → Abreast c c' us s t →
      (Progress.operator (slot.after :: outer)).asks us = false → Unjoined slot.rungs us →
      Agree c c' { slot with rungs := rung :: slot.rungs } outer us.length
        (rung.chain operand most left s) (rung.chain operand most left t)
  | 0, _, us, _, _, _, _, enough, twins, quiet, unjoined => by
      cases List.length_eq_zero_iff.mp (Nat.le_zero.mp enough)
      exact ⟨rfl, [], Nat.le_refl _, twins, quiet, unjoined.cons nofun⟩
  | most + 1, left, us, s, t, outer, short, enough, twins, quiet, unjoined => by
      rcases chain_cases inner twins with
        ⟨here, there, none⟩ | ⟨w, us, join, rfl, joins, here, there⟩
      · rw [chain_of_none here, chain_of_none there]
        exact ⟨rfl, us, Nat.le_refl _, twins, quiet, unjoined.cons none⟩
      · rw [Progress.asks, asks joins] at quiet
        -- an operand is asked for, so there is a word for it in the statement
        obtain ⟨v, vs, rfl⟩ := Progress.exists_cons_of_asks quiet
        simp only [List.length_cons] at short enough ⊢
        rw [chain_of_some here, chain_of_some there]
        obtain ⟨goes, goes', counted⟩ := twins.counted (rung.link operand most join left) left
        rw [goes, goes', link, link]
        obtain ⟨same, us', less, read, quiet', unjoined'⟩ :=
          h (by omega) (counted.checkOperand rung left) quiet
        rw [← same]
        exact (chain_agrees inner asks h most _ (by omega) (by omega) (read.checkOperand rung _)
          quiet' unjoined').mono (by omega)

/-- The first operand, and then the chain behind it. -/
theorem many_agrees (inner : rung.Inner) (asks : rung.Asks slot)
    (h : operand.Agrees c c' bound slot) :
    (rung.many operand).Agrees c c' bound { slot with rungs := rung :: slot.rungs } := by
  intro w us s t outer short twins quiet
  obtain ⟨same, us', less, read, rest⟩ := h short twins quiet
  have within := read.within
  rw [many_eq, many_eq, ← same]
  exact (chain_agrees inner asks h _ _ (by omega) (by omega) read rest.1 rest.2).mono less

/-- A comparison has one sign at most. -/
theorem once_agrees (h : ∀ compared, operand.Agrees c c' bound (.side compared)) :
    (comparison.once operand).Agrees c c' bound .comparison := by
  intro w us s t outer short twins quiet
  obtain ⟨same, us', less, read, quiet', unjoined⟩ := h false short twins quiet
  rw [once_eq, once_eq, ← same]
  rcases chain_cases comparison_inner read with
    ⟨here, there, none⟩ | ⟨v, vs, join, rfl, joins, here, there⟩
  · rw [chain_of_none here, chain_of_none there]
    exact ⟨rfl, us', less, read, Progress.asks_compared quiet' (unjoined.cons none), unjoined⟩
  · rw [Progress.asks, Slot.side, Progress.read_comparison joins] at quiet'
    obtain ⟨v', vs, rfl⟩ := Progress.exists_cons_of_asks quiet'
    simp only [List.length_cons] at less
    rw [chain_of_some here, chain_of_some there]
    obtain ⟨goes, goes', counted⟩ := read.counted (comparison.link operand 0 join (operand s).1)
      (operand s).1
    rw [goes, goes', link, link]
    obtain ⟨same', us'', less', read', rest⟩ :=
      h true (by omega) (counted.checkOperand comparison _) quiet'
    rw [← same']
    exact ⟨rfl, us'', by omega, read'.checkOperand comparison _, rest⟩

end Rung

namespace Deeper

/-- The parsers go in lockstep, if fewer words than levels of nesting are left. -/
structure Agrees (c c' : Surroundings) (levels : Nat) (d : Deeper) : Prop where
  group : d.group.Agrees c c' levels .whole
  negation : d.negation.Agrees c c' levels .negated
  negative : ∀ compared, d.negative.Agrees c c' levels (.unit compared)

variable {d : Deeper} {levels : Nat}

/-- A prefix operator takes a word and a level. -/
theorem prefixed_agrees {p : Parser} (h : p.Agrees c c' levels slot) {w : Word} {us : List Word}
    {s t : State} {outer : List Bool} (short : us.length < levels)
    (twins : Abreast c c' (w :: us) s t)
    (quiet : (Progress.operand slot.negatable (slot.before :: outer)).asks us = false) :
    Agree c c' slot outer us.length (p.counted (.num 0) s.advance)
      (p.counted (.num 0) t.advance) := by
  obtain ⟨v, vs, rfl⟩ := Progress.exists_cons_of_asks quiet
  obtain ⟨goes, goes', counted⟩ := twins.counted p (.num 0)
  rw [goes, goes']
  exact (h short counted quiet).mono (Nat.le_succ _)

/-- One case for each kind of first token.  A group goes on one level deeper, and closes with its
parenthesis or with the same report. -/
theorem Agrees.primary (h : d.Agrees c c' levels) {compared : Bool} {w : Word} {us : List Word}
    {s t : State} {outer : List Bool} (short : us.length < levels)
    (twins : Abreast c c' (w :: us) s t) (sign : w.kind ≠ .minus)
    (quiet : (Progress.operand false (compared :: outer)).asks (w :: us) = false) :
    Agree c c' (.unit compared) outer us.length (d.primary s) (d.primary t) := by
  have word : s.current.word = t.current.word :=
    twins.left.current.trans twins.right.current.symm
  have text : s.current.text = t.current.text := congrArg Word.text word
  -- what is no group takes one word
  have taken (group : w.kind ≠ .openParen) :
      (Progress.operator (compared :: outer)).asks us = false ∧ Unjoined [] us := by
    rw [Progress.asks, Progress.read_operand_of_other group sign] at quiet
    exact ⟨quiet, Progress.unjoined_nil us⟩
  rw [Deeper.primary, Deeper.primary, twins.left.current_kind, twins.right.current_kind, text]
  split
  · rename_i kind
    have rest := taken (by simp [kind])
    split
    · exact ⟨rfl, us, Nat.le_refl _, twins.advance, rest⟩
    · exact ⟨rfl, us, Nat.le_refl _, twins.advance.report _ _, rest⟩
  · rename_i kind
    exact ⟨rfl, us, Nat.le_refl _, twins.advance, taken (by simp [kind])⟩
  · rename_i kind
    rw [Progress.asks, kind] at quiet
    obtain ⟨v, vs, rfl⟩ := Progress.exists_cons_of_asks quiet
    obtain ⟨same, us', less, read, quiet', unjoined⟩ := h.group short twins.advance quiet
    have less' := length_passing_le .closeParen us'
    exact ⟨same, _, Nat.le_trans less' (Nat.le_succ_of_le less),
      read.expect_closeParen .expectedGroupEnd, Progress.asks_leave quiet' unjoined,
      Progress.unjoined_nil _⟩
  · rename_i group
    exact ⟨rfl, us, Nat.le_refl _, twins.advance.report _ _, taken group⟩

/-- A sign takes a word, so the operand behind it has fewer left. -/
theorem Agrees.signed (h : d.Agrees c c' levels) (compared : Bool) :
    d.signed.Agrees c c' (levels + 1) (.unit compared) := by
  intro w us s t outer short twins quiet
  rw [Deeper.signed, Deeper.signed, twins.left.current_kind, twins.right.current_kind]
  split
  · rename_i kind
    rw [Progress.asks, kind] at quiet
    exact prefixed_agrees (h.negative compared) (by omega) twins quiet
  · rename_i sign
    exact h.primary (by omega) twins sign quiet

/-- Sums on both sides, compared at most once. -/
theorem Agrees.comparison (h : d.Agrees c c' levels) :
    d.comparison.Agrees c c' (levels + 1) .comparison := by
  refine Rung.once_agrees fun compared => ?_
  have factors : (Rung.product.many d.signed).Agrees c c' (levels + 1) (.factors compared) :=
    Rung.many_agrees Rung.product_inner (fun _ _ _ => Progress.read_product) (h.signed compared)
  exact Rung.many_agrees Rung.sum_inner (fun _ _ _ => Progress.read_sum) factors

/-- With `not` the comparison behind it is one word shorter. -/
theorem Agrees.negated (h : d.Agrees c c' levels) :
    d.negated.Agrees c c' (levels + 1) .negated := by
  intro w us s t outer short twins quiet
  rw [Deeper.negated, Deeper.negated, twins.left.current_kind, twins.right.current_kind]
  split
  · rename_i kind
    rw [Progress.asks, kind] at quiet
    exact prefixed_agrees h.negation (by omega) twins quiet
  · rename_i other
    rw [Progress.asks, Progress.read_operand_of_ne other] at quiet
    exact h.comparison short twins quiet

theorem Agrees.ladder (h : d.Agrees c c' levels) : d.ladder.Agrees c c' (levels + 1) .whole := by
  have conjuncts : (Rung.conjunction.many d.negated).Agrees c c' (levels + 1) .conjunction :=
    Rung.many_agrees Rung.conjunction_inner (fun _ _ _ => Progress.read_conjunction) h.negated
  exact Rung.many_agrees Rung.disjunction_inner (fun _ _ _ => Progress.read_disjunction) conjuncts

/-- One level more is enough for one word more. -/
theorem Agrees.next (h : d.Agrees c c' levels) : d.next.Agrees c c' (levels + 1) where
  group := h.ladder.nested
  negation := by
    intro w us s t outer short twins quiet
    obtain ⟨same, us', less, read⟩ := h.negated.nested short twins quiet
    rw [next_negation, next_negation, same]
    exact ⟨rfl, us', less, read⟩
  negative := by
    intro compared w us s t outer short twins quiet
    obtain ⟨same, us', less, read, rest⟩ := (h.signed compared).nested short twins quiet
    rw [next_negative, next_negative, same]
    exact ⟨rfl, us', less, read.reportCondition _ _, rest⟩

end Deeper

/-- By recursion on the levels.  With no level left the bound on the words cannot hold. -/
theorem deeper_agrees : ∀ levels : Nat, (deeper levels).Agrees c c' levels
  | 0 => by
      have none (slot : Slot) (p : Parser) : p.Agrees c c' 0 slot :=
        fun w us s t outer short => absurd short (Nat.not_lt_zero _)
      exact ⟨none _ _, none _ _, fun _ => none _ _⟩
  | levels + 1 => (deeper_agrees levels).next

/-! ## Simple statements -/

/-- An expression gives the same tree in both places and leaves off at the same word. -/
theorem expression_agrees (levels : Nat) {us : List Word} (short : us.length < levels)
    (few : us.length ≤ maxOperators) (twins : Twins c c' us s t)
    (quiet : Progress.start.asks us = false) :
    (expression levels s).1 = (expression levels t).1 ∧
      ∃ us', Abreast c c' us' (expression levels s).2 (expression levels t).2 := by
  obtain ⟨w, us, rfl⟩ := Progress.exists_cons_of_asks quiet
  have start : Abreast c c' (w :: us) { s with operators := 0 } { t with operators := 0 } :=
    ⟨twins.with_operators 0 0, rfl, by rw [Nat.zero_add]; exact few⟩
  obtain ⟨same, us', -, read, -⟩ := (deeper_agrees levels).group short start quiet
  rw [expression_eq, expression_eq, ← same]
  exact ⟨rfl, us', read.reportCondition _ _⟩

/-- What an assignment or an output reads behind its first word. -/
theorem statementByKind_agrees (most most' levels : Nat) (inner inner' : Parser) {us : List Word}
    {s t : State} (word : s.current.word = t.current.word)
    (simple : s.current.kind = .name ∨ s.current.kind = .out) (short : us.length < levels)
    (few : us.length ≤ maxOperators) (begun : Twins c c' us s.advance t.advance)
    (quiet : asksBehind s.current.kind us = false) :
    let first := statementByKind most levels inner s
    let second := statementByKind most' levels inner' t
    first.1 = second.1 ∧ ∃ us', Abreast c c' us' first.2 second.2 ∧
      (us' = [] ∧ c.ending = .semicolon ∨ first.2.panicking = true) := by
  have kind : s.current.kind = t.current.kind := congrArg Word.kind word
  have text : s.current.text = t.current.text := congrArg Word.text word
  rcases simple with name | out
  · rw [asksBehind, if_pos name] at quiet
    obtain ⟨signed, -⟩ := begun.expect .assign (by decide) .expectedAssign
    have less := length_passing_le .assign us
    obtain ⟨same, us', read⟩ :=
      expression_agrees levels (Nat.lt_of_le_of_lt less short) (Nat.le_trans less few) signed quiet
    obtain ⟨us'', ended, last⟩ := read.expect_semicolon .expectedSemicolon
    simp only [statementByKind, ← kind, name, assignment, ← text]
    exact ⟨congrArg (Node.assign _) same, us'', ended, last⟩
  · rw [asksBehind, if_neg (by simp [out])] at quiet
    obtain ⟨same, us', read⟩ := expression_agrees levels short few begun quiet
    obtain ⟨us'', ended, last⟩ := read.expect_semicolon .expectedSemicolon
    simp only [statementByKind, ← kind, out, output]
    exact ⟨congrArg Node.out same, us'', ended, last⟩

/-! ## Recovery -/

/-- No statement may start at a plain word or a semicolon, if there is no semicolon before it. -/
theorem resumes_eq_false {previous current : Token} (other : previous.kind ≠ .semicolon)
    (inside : current.kind.isPlain = true ∨ current.kind = .semicolon) (depth : Nat) :
    resumes depth previous current = false := by
  rw [resumes, decide_eq_false other, Bool.false_or]
  rcases inside with plain | stop
  · revert plain
    cases current.kind <;> simp [TokenKind.isPlain]
  · rw [stop]

/-- A parse goes on right behind the statement. -/
theorem skip_remains (c : Surroundings) {depth : Nat} (inside : c.ending = .brace → 0 < depth)
    (ts : List Token) (s : State) (remains : Remains c.ending (ts.map Token.word))
    (previous : s.previous.kind = .semicolon ↔ ts = [] ∧ c.ending = .semicolon) :
    ∃ last, skip (resumes depth) s ((ts ++ c.rest).map .token) =
      { s with previous := last, upcoming := c.rest.map .token } := by
  induction ts generalizing s with
  | nil =>
      refine ⟨s.previous, ?_⟩
      cases same : c.rest with
      | nil => rfl
      | cons t rest =>
          have stops : resumes depth s.previous t = true := by
            have follows := c.follows t rest same
            cases ending : c.ending with
            | semicolon =>
                rw [resumes, decide_eq_true (previous.mpr ⟨rfl, ending⟩), Bool.true_or]
            | brace =>
                rw [ending] at follows
                simp [resumes, List.mem_singleton.mp follows, inside ending]
          exact if_pos stops
  | cons t ts ih =>
      have other : s.previous.kind ≠ .semicolon := fun same => by cases (previous.mp same).1
      have goesOn := resumes_eq_false other remains.head depth
      have last := remains.semicolon_iff
      rw [List.map_eq_nil_iff] at last
      obtain ⟨final, same⟩ := ih { s with previous := t } remains.tail last
      refine ⟨final, ?_⟩
      rw [List.cons_append, List.map_cons, skip, if_neg (by simp [goesOn]), same]

/-- Recovery passes over the rest of the statement and stops where it ends. -/
theorem Facing.recover {s : State} (h : Facing c us s)
    (inside : c.ending = .brace → 0 < s.depth) :
    ∃ last, s.recover =
      { s with previous := last, upcoming := c.rest.map .token, panicking := false } := by
  obtain ⟨ts, rfl, upcoming⟩ := h.tokens
  have previous := h.previous
  rw [List.map_eq_nil_iff] at previous
  obtain ⟨last, same⟩ :=
    skip_remains c inside ts { s with panicking := false } h.remains previous
  have step : s.recover = skip (resumes s.depth) { s with panicking := false } s.upcoming :=
    if_neg (by simp [h.aborted])
  rw [step]
  exact ⟨last, (congrArg (skip (resumes s.depth) { s with panicking := false }) upcoming).trans
    same⟩

/-! ## Between the statements of a program -/

/-- Between two statements of a program, with the tokens `ts` still to be read. -/
structure State.Clear (ts : List Token) (s : State) : Prop where
  upcoming : s.upcoming = ts.map .token
  ends : ∀ t ∈ ts, t.kind ≠ .endOfInput
  finish : s.finish.kind = .endOfInput
  depth : s.depth = 0
  operators : s.operators ≤ maxOperators
  panicking : s.panicking = false
  aborted : s.aborted = false

theorem State.Clear.ends_rest {s : State} {f : Token} {ts us : List Token}
    (h : s.Clear (f :: (ts ++ us))) : ∀ t ∈ us, t.kind ≠ .endOfInput :=
  fun t mem => h.ends t (List.mem_cons_of_mem _ (List.mem_append_right _ mem))

/-- Between two statements there is no panic, and a step over a token starts none. -/
theorem State.Clear.advance_panicking {s : State} {f : Token} {ts : List Token}
    (h : s.Clear (f :: ts)) (depth : Nat) :
    (advance { s with depth := depth }).panicking = false := by
  rw [(advance_of_tokens (s := { s with depth := depth }) h.upcoming).2]
  exact h.panicking

/-- Behind the first word of a statement, the rest of it is left to read. -/
theorem State.Clear.facing {s : State} {f : Token} {ts : List Token}
    (clear : s.Clear (f :: (ts ++ c.rest))) (errors : s.errors = c.errors)
    (remains : Remains c.ending (ts.map Token.word)) (some : ts ≠ []) (first : f.kind ≠ .semicolon)
    (depth : Nat) :
    Facing c (ts.map Token.word) (advance { s with depth := depth }) := by
  have upcoming : { s with depth := depth }.upcoming = (f :: (ts ++ c.rest)).map .token :=
    clear.upcoming
  rw [(advance_of_tokens upcoming).2]
  refine ⟨⟨ts, rfl, rfl⟩, remains, ?_, clear.finish, ?_, clear.aborted⟩
  · rw [List.map_eq_nil_iff]
    exact ⟨fun stop => absurd stop first, fun none => absurd none.1 some⟩
  · rw [errors, clear.panicking]
    rfl

/-- After the statement and a recovery, if there has to be one, what is behind the statement is
left to read. -/
theorem Facing.clear {s : State} (h : Facing c us s) (whole : c.ending = .semicolon)
    (outer : s.depth = 0) (few : s.operators ≤ maxOperators)
    (ends : ∀ t ∈ c.rest, t.kind ≠ .endOfInput)
    (done : us = [] ∨ s.panicking = true) :
    let behind := if s.panicking then s.recover else s
    behind.Clear c.rest ∧ behind.errors = c.errors + s.panicking.toNat := by
  have errors := h.errors
  cases panic : s.panicking with
  | true =>
      obtain ⟨last, same⟩ := h.recover (by simp [whole])
      rw [panic] at errors
      simp only [if_true, same]
      exact ⟨⟨rfl, ends, h.finish, outer, few, rfl, h.aborted⟩, errors⟩
  | false =>
      obtain ⟨ts, words, upcoming⟩ := h.tokens
      rw [done.resolve_right (by simp [panic]), List.map_eq_nil_iff] at words
      rw [words, List.nil_append] at upcoming
      rw [panic] at errors
      simp only [Bool.false_eq_true, if_false]
      exact ⟨⟨upcoming, ends, h.finish, outer, few, panic, h.aborted⟩, errors⟩

section Attempted

variable (c c') {f f' : Token} {ts ts' : List Token} (clear : s.Clear (f :: (ts ++ c.rest)))
  (clear' : t.Clear (f' :: (ts' ++ c'.rest))) (whole : c.ending = .semicolon)
  (whole' : c'.ending = .semicolon) (errors : s.errors = c.errors)
  (errors' : t.errors = c'.errors) (simple : f.kind = .name ∨ f.kind = .out)
  (word : f.word = f'.word) (words : ts.map Token.word = ts'.map Token.word)
  (remains : Remains .semicolon (ts.map Token.word)) (some : ts ≠ []) (short : ts.length ≤ 121)
include clear clear' whole whole' errors errors' simple word words remains some short

omit short in
/-- Behind its first word an attempted statement is faced in both places. -/
theorem twins_begun : Twins c c' (ts.map Token.word) (advance { s with depth := s.depth + 1 })
    (advance { t with depth := t.depth + 1 }) := by
  have first : f.kind ≠ .semicolon := ne_semicolon_of_starts (mem_starts simple)
  have kind : f.kind = f'.kind := congrArg Word.kind word
  have some' : ts' ≠ [] := by
    rintro rfl
    exact some (List.map_eq_nil_iff.mp words)
  have left := clear.facing errors (whole ▸ remains) some first (s.depth + 1)
  have right := clear'.facing errors' (whole' ▸ words ▸ remains) some' (kind ▸ first) (t.depth + 1)
  rw [← words] at right
  refine ⟨left, right, ?_⟩
  rw [clear.advance_panicking, clear'.advance_panicking]

/-- An attempted statement is read up to its semicolon or into panic. -/
theorem statement_agrees (most most' : Nat) :
    let first := statement most maxNesting s
    let second := statement most' maxNesting t
    first.1 = second.1 ∧ ∃ us', Abreast c c' us' first.2 second.2 ∧
      (us' = [] ∧ c.ending = .semicolon ∨ first.2.panicking = true) := by
  obtain ⟨levels, nesting, room⟩ : ∃ levels, maxNesting = levels + 1 ∧ 121 < levels :=
    ⟨127, rfl, by decide⟩
  have here := (advance_of_tokens (s := { s with depth := s.depth + 1 }) clear.upcoming).1
  have here' := (advance_of_tokens (s := { t with depth := t.depth + 1 }) clear'.upcoming).1
  have length : (ts.map Token.word).length ≤ 121 := by rwa [List.length_map]
  obtain ⟨same, us', read, done⟩ := statementByKind_agrees most most' levels
    (statement most levels) (statement most' levels) (by rw [here, here', word])
    (by rw [here]; exact simple) (by omega) (Nat.le_trans length (by decide))
    (twins_begun c c' clear clear' whole whole' errors errors' simple word words remains some)
    (remains.asksBehind_eq_false (by simpa using some) _)
  rw [nesting, statement, statement, Parser.nested_eq, Parser.nested_eq]
  exact ⟨same, us', read.with_depth _ _, done⟩

/-- An attempted statement is read to its semicolon in either place.  Both readings give the same
tree and report as much, once at most. -/
theorem recovering_agrees (most most' : Nat) :
    let first := recovering (statement most maxNesting) s
    let second := recovering (statement most' maxNesting) t
    first.1 = second.1 ∧ first.2.Clear c.rest ∧ second.2.Clear c'.rest ∧
      ∃ k, k ≤ 1 ∧ first.2.errors = c.errors + k ∧ second.2.errors = c'.errors + k := by
  obtain ⟨same, us', read, done⟩ := statement_agrees c c' clear clear' whole whole' errors errors'
    simple word words remains some short most most'
  have outer := (statement_works most maxNesting s (by rw [clear.depth, Nat.zero_add])).onward.depth
  have outer' :=
    (statement_works most' maxNesting t (by rw [clear'.depth, Nat.zero_add])).onward.depth
  have few : (statement most maxNesting s).2.operators ≤ maxOperators :=
    Nat.le_trans (Nat.le_add_right ..) read.within
  have done := done.imp_left And.left
  obtain ⟨behind, counted⟩ :=
    read.left.clear whole (outer.trans clear.depth) few clear.ends_rest done
  obtain ⟨behind', counted'⟩ := read.right.clear whole' (outer'.trans clear'.depth)
    (read.operators ▸ few) clear'.ends_rest (read.panicking ▸ done)
  refine ⟨same, behind, behind', (statement most maxNesting s).2.panicking.toNat,
    Bool.toNat_le _, counted, ?_⟩
  rw [read.panicking]
  exact counted'

end Attempted

end WhenLoop
