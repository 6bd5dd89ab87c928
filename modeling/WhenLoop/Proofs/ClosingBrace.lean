import WhenLoop.Proofs.Recovery

/-!
# The brace behind a statement that breaks off

A block may have a last statement that breaks off, with no semicolon before the closing brace.
If no operand is asked for at the brace, then the statement is reported on once, the brace closes
the block, and what is behind the block is read as it would be alone (`parse_block_breaksOff`).
The words of the statement may be anything that neither ends a statement nor starts another, and
`asksBehind` tells from their kinds whether an operand is asked for behind them.  None is if the
last word can be the last of an operand (`breaksOff_of_operand`), or if the reading of the
statement ended before it.

This is one more use of `Facing`.  The brace is a token at which every open construct ends.  So
no parser goes on there, and the brace is the place that the recovery finds.

The condition is needed.  An operand that is asked for at the brace takes the brace away, and then
the block ends nowhere (`parse_brace_taken`).
-/

namespace WhenLoop

open State Grammar Lexical

variable {most levels : Nat} {s : State}

/-! ## The statements before it -/

/-- A list of statements does not end where a statement starts. -/
theorem State.At.goesOn {stop : TokenKind → Bool} {t : Token} {ts : List Token}
    (here : s.At (t :: ts)) (goes : ∀ kind ∈ starts, stop kind = false) (start : t.kind ∈ starts) :
    ¬(s.atEnd || stop s.current.kind) = true := by
  rw [State.atEnd, here.current, goes t.kind start]
  simpa using here.kind_ne (List.mem_cons_self ..)

/-- Statements of the grammar are read one after the other, and then the list goes on behind
them. -/
theorem Grammar.Statements.statementList_eq {stop : TokenKind → Bool} {rest : List Token}
    (goes : ∀ kind ∈ starts, stop kind = false) (begins : Begins rest) {ts : List Token}
    {nodes : List Node} (h : Statements maxOperators levels ts nodes) (here : s.At (ts ++ rest))
    (room : s.depth + levels = maxNesting) (enough : ts.length ≤ most) :
    ∃ s', s'.At rest ∧ Works false s s' ∧ ∀ bound, ts.length ≤ bound →
      ∃ left, bound ≤ ts.length + left ∧
        statementList stop (statement most levels) bound s =
          (nodes ++ (statementList stop (statement most levels) left s').1,
            (statementList stop (statement most levels) left s').2) := by
  induction nodes generalizing ts s with
  | nil =>
      cases h
      exact ⟨s, here, .refl s, fun bound _ => ⟨bound, by simp, rfl⟩⟩
  | cons node nodes ih =>
      cases h with
      | @cons _ ts us _ _ first others =>
          rw [List.append_assoc] at here
          rw [List.length_append] at enough
          have next : Begins (us ++ rest) := by
            cases others with
            | nil => exact begins
            | cons second _ =>
                obtain ⟨t, ts, rfl, start⟩ := second.head
                rintro t' _ ⟨⟩
                exact start
          obtain ⟨s₁, read, there⟩ :=
            first.complete (show ts.length ≤ most by omega) here fun _ => next.no_else
          have works := statement_works most levels s room
          rw [read] at works
          obtain ⟨s', last, works', list⟩ :=
            ih others there (works.onward.depth ▸ room) (by omega)
          obtain ⟨t, ts, rfl, start⟩ := first.head
          refine ⟨s', last, works.append works', fun bound le => ?_⟩
          rw [List.length_append, List.length_cons] at le
          obtain ⟨bound, rfl⟩ : ∃ b, bound = b + 1 := ⟨bound - 1, by omega⟩
          obtain ⟨left, less, same⟩ := list bound (by omega)
          refine ⟨left, by rw [List.length_append, List.length_cons]; omega, ?_⟩
          rw [statementList, if_neg (here.goesOn goes start)]
          simp only [recovering_of_quiet read there.quiet, same, List.cons_append]

/-! ## The statement that breaks off -/

/-- The words of a statement that breaks off where no operand is asked for. -/
inductive BreaksOff : List Word → Prop where
  | words {first : Word} {plain : List Word} :
      first.kind = .name ∨ first.kind = .out → plain.length ≤ 120 →
      (∀ w ∈ plain, w.kind.isPlain = true) → asksBehind first.kind plain = false →
      BreaksOff (first :: plain)

/-- What a statement that breaks off is made of, word by word. -/
theorem BreaksOff.parts {w : Word} {ws : List Word} (h : BreaksOff (w :: ws)) :
    (w.kind = .name ∨ w.kind = .out) ∧ ws ≠ [] ∧ ws.length ≤ 120 ∧ Remains .brace ws ∧
      asksBehind w.kind ws = false := by
  cases h with
  | words simple short others quiet =>
      refine ⟨simple, ?_, short, remains_of_plain others, quiet⟩
      rintro rfl
      exact absurd quiet (by simp [asksBehind, passing, Progress.start, Progress.asks,
        Progress.isOperand])

/-- A statement may break off behind a word that can be the last of an operand, whatever the
words before it are. -/
theorem breaksOff_of_operand {first last : Word} {plain : List Word}
    (simple : first.kind = .name ∨ first.kind = .out) (short : plain.length < 120)
    (others : ∀ w ∈ plain, w.kind.isPlain = true)
    (ends : last.kind ∈ [.name, .number, .closeParen]) :
    BreaksOff (first :: (plain ++ [last])) := by
  have all : ∀ kind ∈ [TokenKind.name, .number, .closeParen],
      kind.isPlain = true ∧ kind ≠ .assign ∧
        kind ∈ [TokenKind.semicolon, .name, .number, .closeParen] := by decide
  obtain ⟨lastPlain, noSign, lastOperand⟩ := all _ ends
  refine .words simple ?_ ?_ ?_
  · rw [List.length_append, List.length_singleton]
    omega
  · exact List.forall_mem_append.mpr ⟨others, List.forall_mem_singleton.mpr lastPlain⟩
  · obtain ⟨us, same⟩ : ∃ us, (if first.kind = .name then passing .assign (plain ++ [last])
        else plain ++ [last]) = us ++ [last] := by
      split
      · cases plain with
        | nil => exact ⟨[], if_neg noSign⟩
        | cons w plain =>
            rw [List.cons_append, passing]
            split
            · exact ⟨plain, rfl⟩
            · exact ⟨w :: plain, rfl⟩
      · exact ⟨plain, rfl⟩
    rw [asksBehind, same]
    exact Progress.start.asks_concat us lastOperand

/-- A block that ends behind a statement, before which nothing was reported. -/
def Surroundings.blockEnd {r : Token} (closes : r.kind = .closeBrace) (rest : List Token) :
    Surroundings where
  ending := .brace
  rest := r :: rest
  follows := by
    rintro t ts ⟨⟩
    exact List.mem_singleton.mpr closes
  errors := 0

section

variable {f r : Token} {us rest : List Token} (closes : r.kind = .closeBrace)
  (breaksOff : BreaksOff (f.word :: us.map Token.word))
include closes breaksOff

/-- The statement is read into panic, and no further than to the brace. -/
theorem statement_breaksOff (most : Nat) (deep : 120 < levels)
    (here : s.At (f :: (us ++ r :: rest))) (accurate : s.Accurate) :
    let read := statement most (levels + 1) s
    (∃ us', Facing (.blockEnd closes rest) us' read.2) ∧ read.2.panicking = true ∧
      read.2.operators ≤ maxOperators := by
  obtain ⟨simple, some, short, remains, quiet⟩ := breaksOff.parts
  have some' : us ≠ [] := fun none => some (List.map_eq_nil_iff.mpr none)
  have first : f.kind ≠ .semicolon := ne_semicolon_of_starts (mem_starts simple)
  have current : s.current = f := here.current
  -- the depth is not looked at, so the state may be taken for one outside of any block
  obtain ⟨clear, none⟩ := (here.with_depth 0).clear rfl ⟨accurate.errors, accurate.aborted⟩
  have begun := Clear.facing (c := .blockEnd closes rest) clear none remains some' first
    (s.depth + 1)
  -- and a place agrees with itself
  obtain ⟨-, us', read, done⟩ := statementByKind_agrees most most levels (statement most levels)
    (statement most levels) rfl (current.symm ▸ simple) (Nat.lt_of_le_of_lt short deep)
    (Nat.le_trans short (by decide)) ⟨begun, begun, rfl⟩ (current.symm ▸ quiet)
  have panic := done.resolve_left fun whole => nomatch whole.2
  exact ⟨⟨us', read.left.with_depth _⟩, panic, Nat.le_trans (Nat.le_add_right ..) read.within⟩

/-- Inside a block the statement is reported on, and the parse goes on at the brace. -/
theorem recovering_breaksOff (most : Nat) (deep : 120 < levels)
    (here : s.At (f :: (us ++ r :: rest))) (accurate : s.Accurate) (inside : 0 < s.depth)
    (room : s.depth + (levels + 1) = maxNesting) :
    ∃ node s', recovering (statement most (levels + 1)) s = (node, s') ∧
      (node.kind = .assign ∨ node.kind = .out) ∧ { s' with depth := 0 }.Clear (r :: rest) ∧
      s'.depth = s.depth ∧ s'.errors = 1 := by
  obtain ⟨⟨us', left⟩, panic, few⟩ := statement_breaksOff closes breaksOff most deep here accurate
  have depth := (statement_works most (levels + 1) s room).onward.depth
  obtain ⟨last, same⟩ := left.recover fun _ => depth ▸ inside
  have recovered : recovering (statement most (levels + 1)) s =
      ((statement most (levels + 1) s).1, (statement most (levels + 1) s).2.recover) :=
    congrArg (Prod.mk _) (if_pos panic)
  have errors := left.errors
  rw [panic] at errors
  refine ⟨_, _, recovered, ?_, ?_⟩
  · have current : s.current = f := here.current
    have kind := recovering_kind most levels (current.symm ▸ breaksOff.parts.1)
    rwa [recovered] at kind
  · have ends : ∀ t ∈ r :: rest, t.kind ≠ .endOfInput :=
      fun t mem => here.kind_ne (List.mem_cons_of_mem _ (List.mem_append_right _ mem))
    rw [same]
    exact ⟨⟨rfl, ends, left.finish, rfl, few, rfl, left.aborted⟩, depth, errors⟩

/-- The list of statements ends at the brace. -/
theorem statementList_breaksOff (most : Nat) {ts : List Token} {nodes : List Node}
    (derives : Statements maxOperators (levels + 1) ts nodes) (deep : 120 < levels)
    (here : s.At (ts ++ f :: (us ++ r :: rest))) (accurate : s.Accurate) (inside : 0 < s.depth)
    (room : s.depth + (levels + 1) = maxNesting) (enough : ts.length + 2 ≤ most) :
    ∃ node s', statementList (· = .closeBrace) (statement most (levels + 1)) most s =
        (nodes ++ [node], s') ∧
      (node.kind = .assign ∨ node.kind = .out) ∧ { s' with depth := 0 }.Clear (r :: rest) ∧
      s'.depth = s.depth ∧ s'.errors = 1 := by
  have start : f.kind ∈ starts := mem_starts breaksOff.parts.1
  have begins : Begins (f :: (us ++ r :: rest)) := by
    rintro t ts ⟨⟩
    exact start
  have goes : ∀ kind ∈ starts, decide (kind = .closeBrace) = false := by simp [starts]
  obtain ⟨s₁, here₁, works, list⟩ :=
    derives.statementList_eq goes begins here room (show ts.length ≤ most by omega)
  obtain ⟨left, more, listed⟩ := list most (by omega)
  obtain ⟨left, rfl⟩ : ∃ k, left = k + 2 := ⟨left - 2, by omega⟩
  have depth := works.onward.depth
  obtain ⟨node, s₂, read, kind, clear, depth', errors⟩ :=
    recovering_breaksOff closes breaksOff most deep here₁ (works.accurate accurate)
      (depth ▸ inside) (depth ▸ room)
  have stops : (s₂.atEnd || decide (s₂.current.kind = .closeBrace)) = true := by
    rw [(advance_of_tokens (s := s₂) clear.upcoming).1, closes]
    exact Bool.or_true _
  have ended : statementList (· = .closeBrace) (statement most (levels + 1)) (left + 1) s₂ =
      ([], s₂) := statementList_of_stop stops _
  refine ⟨node, s₂, ?_, kind, clear, depth'.trans depth, errors⟩
  rw [listed, statementList, if_neg (here₁.goesOn goes start)]
  simp only [read, ended]

/-- The block ends at its brace. -/
theorem recovering_block {l : Token} {ts : List Token} {nodes : List Node}
    (opens : l.kind = .openBrace) (derives : Statements maxOperators (maxNesting - 1) ts nodes)
    (here : s.At (l :: (ts ++ f :: (us ++ r :: rest)))) (outer : s.depth = 0)
    (accurate : s.Accurate) (enough : s.upcoming.length ≤ most) :
    ∃ node s', recovering (statement most maxNesting) s = (.seq (nodes ++ [node]), s') ∧
      (node.kind = .assign ∨ node.kind = .out) ∧ s'.Clear rest ∧ s'.errors = 1 := by
  rw [here.upcoming] at enough
  simp only [List.length_map, List.length_cons, List.length_append] at enough
  have depth : (advance { s with depth := s.depth + 1 }).depth = 1 :=
    (skip_depth ..).trans (congrArg (· + 1) outer)
  have room : (advance { s with depth := s.depth + 1 }).depth + (126 + 1) = maxNesting := by
    rw [depth]
    rfl
  have opened := (here.with_depth (s.depth + 1)).advance
  have accurate' : (advance { s with depth := s.depth + 1 }).Accurate :=
    Accurate.advance ⟨accurate.errors, accurate.aborted⟩
  obtain ⟨node, s', list, kind, clear, depth', errors⟩ :=
    statementList_breaksOff closes breaksOff most derives (by decide) opened accurate' (by omega)
      room (by omega)
  obtain ⟨current, step⟩ := advance_of_tokens (s := s') clear.upcoming
  have first : { s with depth := s.depth + 1 }.current = l := here.current
  have read : statement most maxNesting s = (.seq (nodes ++ [node]),
      { s' with previous := r, upcoming := rest.map .token, depth := 0 }) := by
    rw [show maxNesting = 126 + 1 + 1 from rfl, statement, Parser.nested_eq, statementByKind, first,
      opens]
    simp only [block, list]
    rw [State.expect, current, if_pos closes, step, depth', depth]
  have recovered : recovering (statement most maxNesting) s = (.seq (nodes ++ [node]),
      { s' with previous := r, upcoming := rest.map .token, depth := 0 }) := by
    have calm : s'.panicking = false := clear.panicking
    simp only [recovering, read, calm, Bool.false_eq_true, if_false]
  have ends : ∀ t ∈ rest, t.kind ≠ .endOfInput :=
    fun t mem => clear.ends t (List.mem_cons_of_mem _ mem)
  exact ⟨node, _, recovered, kind, ⟨rfl, ends, clear.finish, rfl, clear.operators, clear.panicking,
    clear.aborted⟩, errors⟩

end

/-! ## Whole sources -/

/-- An accepted source is a segment of its statements. -/
theorem segment_of_statements {source : String} {nodes : List Node}
    (h : readProgram source = .ok (.seq nodes)) :
    ∃ words, Spells source.toList words ∧ Segment words nodes 0 := by
  obtain ⟨words, others, spells, segment⟩ := segment_of_accepted h
  have same := (segment.parse_eq spells).1.symm.trans (readProgram_eq_ok.mp h).2
  cases same
  exact ⟨words, spells, segment⟩

/-- A statement that stands between others is read, and then those behind it. -/
theorem program_of_recovering {t : Token} {ts rest : List Token} {words : List Word} {node : Node}
    {nodes : List Node} {errors : Nat} {s' : State} (clear : s.Clear (t :: ts))
    (read : recovering (statement s.upcoming.length maxNesting) s = (node, s'))
    (clear' : s'.Clear rest) (segment : Segment words nodes errors)
    (same : rest.map Token.word = words) :
    (program s).1 = node :: nodes ∧ (program s).2.errors = s'.errors + errors := by
  have reads := continues_recovering clear (Nat.le_refl _)
  rw [read] at reads
  have onward := (recovering_worksAt (statement_works s.upcoming.length maxNesting) s
    clear.room).onward
  rw [read] at onward
  rw [← List.append_nil rest] at clear'
  obtain ⟨last, ended, count, others⟩ := segment.reads same begins_nil clear' onward.length_le
  have whole : program s = (node :: nodes, last) := by
    have both := reads.trans others
    rw [Continues, remaining_of_clear _ ended, List.append_nil] at both
    exact both
  rw [whole]
  exact ⟨rfl, count⟩

/-- A text in braces on lines of their own, and a text behind it. -/
theorem spells_block {inside broken behind : String} {words ends others : List Word}
    (first : Spells inside.toList words) (second : Spells broken.toList ends)
    (last : Spells behind.toList others) :
    Spells ("\n".intercalate ["\x7b", inside, broken, "\x7d", behind]).toList
      (⟨.openBrace, "\x7b"⟩ :: (words ++ (ends ++ ⟨.closeBrace, "\x7d"⟩ :: others))) := by
  have word : ∀ w : Word, Lexeme w.kind w.text.toList → Spells w.text.toList [w] := by
    intro w lexeme
    simpa using spells_spaced (List.forall_mem_singleton.mpr lexeme)
  have opening := word ⟨.openBrace, "\x7b"⟩ (.fixed (by decide))
  have closing := word ⟨.closeBrace, "\x7d"⟩ (.fixed (by decide))
  rw [← String.intercalate_singleton (s := "\n") (t := behind)] at last
  exact opening.line (first.line (second.line (closing.line last)))

/-- A block may end with a statement that breaks off, if no operand is asked for at the brace.  Then
there is one report, the brace closes the block behind the statements before and one for the broken
one, and the source behind the block is read as it is alone. -/
theorem parse_block_breaksOff {inside broken behind : String} {tokens : List Token}
    {words : List Word} {xs ys : List Node} (items : (scan inside).items = tokens.map .token)
    (derives : Program maxOperators (maxNesting - 1) tokens (.seq xs))
    (spells : Spells broken.toList words) (breaksOff : BreaksOff words)
    (accepted : readProgram behind = .ok (.seq ys)) :
    let source := "\n".intercalate ["\x7b", inside, broken, "\x7d", behind]
    (parse source).errors = 1 ∧ ∃ node, (node.kind = .assign ∨ node.kind = .out) ∧
      (parse source).tree = .seq (.seq (xs ++ [node]) :: ys) := by
  intro source
  obtain ⟨others, spells', segment⟩ := segment_of_statements accepted
  have all := spells_block (spells_iff_scan.mpr ⟨tokens, items, rfl⟩) spells spells'
  -- the tokens of the whole source, part by part
  obtain ⟨tokens', items', same⟩ := spells_iff_scan.mp all
  obtain ⟨l, rest, rfl, opens, same₁⟩ := List.map_eq_cons_iff.mp same
  obtain ⟨ts, rest, rfl, sameWords, same₂⟩ := List.map_eq_append_iff.mp same₁
  obtain ⟨us, rest, rfl, sameBroken, same₃⟩ := List.map_eq_append_iff.mp same₂
  obtain ⟨r, rest, rfl, closes, sameBehind⟩ := List.map_eq_cons_iff.mp same₃
  rw [← sameBroken] at breaksOff
  rcases us with _ | ⟨f, us⟩
  · cases breaksOff
  have here := ofScan_at (scan_ended source) items'
  have outer := ofScan_depth (scan source)
  have accurate := ofScan_accurate (scan source)
  cases derives.of_words sameWords with
  | whole statements =>
      obtain ⟨node, s', read, kind, clear, errors⟩ :=
        recovering_block (congrArg Word.kind closes) breaksOff (congrArg Word.kind opens) statements
          here outer accurate (Nat.le_refl _)
      obtain ⟨tree, count⟩ :=
        program_of_recovering (here.clear outer accurate).1 read clear segment sameBehind
      rw [errors] at count
      exact ⟨count, node, kind, congrArg Node.seq tree⟩

/-- The statement has a report on its group, so the operator behind it is not read and asks for no
operand. -/
theorem parse_block_breaksOff_group :
    let tokens : List Token := [⟨.out, "out", ⟨1, 1⟩, ⟨1, 4⟩⟩, ⟨.name, "a", ⟨1, 5⟩, ⟨1, 6⟩⟩,
      ⟨.semicolon, ";", ⟨1, 6⟩, ⟨1, 7⟩⟩]
    let words : List Word := [⟨.name, "x"⟩, ⟨.assign, "="⟩, ⟨.openParen, "("⟩, ⟨.number, "1"⟩,
      ⟨.number, "2"⟩, ⟨.plus, "+"⟩]
    let source := "\n".intercalate ["\x7b", "out a;", "x = ( 1 2 +", "\x7d", "out 2;"]
    ((scan "out a;").items = tokens.map .token ∧
      Program maxOperators (maxNesting - 1) tokens (.seq [.out (.var "a")]) ∧
      Spells "x = ( 1 2 +".toList words ∧ BreaksOff words ∧
      readProgram "out 2;" = .ok (.seq [.out (.num 2)])) ∧
    (parse source).errors = 1 ∧ ∃ node, (node.kind = .assign ∨ node.kind = .out) ∧
      (parse source).tree = .seq [.seq [.out (.var "a"), node], .out (.num 2)] := by
  intro tokens words source
  have items : (scan "out a;").items = tokens.map .token := by decide +kernel
  have name : Phrase .primary 125 0 [⟨.name, "a", ⟨1, 5⟩, ⟨1, 6⟩⟩] (.var "a") := .name rfl
  have value : Expression maxOperators 126 [⟨.name, "a", ⟨1, 5⟩, ⟨1, 6⟩⟩] (.var "a") :=
    .whole (.ofAnd (.ofNot (.ofComparison (.ofTerm (.ofFactor (.ofUnary (.ofPrimary name)))))))
      (Nat.zero_le _) rfl
  have derives : Program maxOperators (maxNesting - 1) tokens (.seq [.out (.var "a")]) :=
    .whole (.cons (.out rfl value rfl) .nil)
  have spells : Spells "x = ( 1 2 +".toList words := by
    refine @spells_spaced words ?_
    simp only [words, List.forall_mem_cons]
    exact ⟨@Lexeme.name 'x' [] (by decide) nofun (by decide), .fixed (by decide),
      .fixed (by decide), @Lexeme.number '1' [] (by decide) nofun,
      @Lexeme.number '2' [] (by decide) nofun, .fixed (by decide), nofun⟩
  have breaksOff : BreaksOff words := .words (.inl rfl) (by decide) (by decide) (by decide)
  have accepted : readProgram "out 2;" = .ok (.seq [.out (.num 2)]) := by with_unfolding_all rfl
  exact ⟨⟨items, derives, spells, breaksOff, accepted⟩,
    parse_block_breaksOff items derives spells breaksOff accepted⟩

/-- The statement breaks off behind an operator.  The brace is taken for the operand, and the block
goes on to the end of the source. -/
theorem parse_brace_taken :
    let source := "\x7b\n\nout 1 +\n\x7d\nout 2;"
    readProgram "" = .ok (.seq []) ∧ readProgram "out 2;" = .ok (.seq [.out (.num 2)]) ∧
      (parse source).errors = 2 ∧ (parse source).tree.statements.length = 1 ∧
      ∀ node, (parse source).tree ≠ .seq [.seq [node], .out (.num 2)] := by
  intro source
  have one : (parse source).tree.statements.length = 1 := by decide +kernel
  refine ⟨by with_unfolding_all rfl, by with_unfolding_all rfl, by decide +kernel, one, ?_⟩
  intro node same
  rw [same] at one
  cases one

end WhenLoop
