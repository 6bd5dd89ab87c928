import Mathlib.Algebra.GroupWithZero.Nat
import WhenLoop.Proofs.EarlierReports
import WhenLoop.Proofs.Layout
import WhenLoop.Proofs.Lockstep
import WhenLoop.Proofs.Termination

/-!
# Broken statements are reported one by one

A source is made of segments, with a line feed between any two.  A segment is a source that is
accepted, or an attempted statement: a name or `out`, up to 120 words of any sort that neither end
a statement nor start another, and a semicolon.  Then what is wrong with the source is what is
wrong with its segments, and its statements are those of the segments in turn
(`parse_segments`).

The notion behind it is `Segment`: words that are read in the same way wherever they stand between
two statements.  One segment behind another is a segment (`Segment.append`), so two kinds of
segments are enough.  A statement of the grammar is one.  It is read without a report in a state
without reports, and earlier reports are not looked at.  An attempted statement is one, since it
is read in any two places in lockstep, and one of the two is the text of its own.
-/

namespace WhenLoop

open State Grammar Lexical

/-! ## Between two statements -/

namespace State.Clear

variable {s : State} {ts : List Token}

theorem standing (h : s.Clear ts) : s.Standing :=
  ⟨h.finish, ends_of_tokens h.upcoming h.ends, head_of_tokens h.upcoming, .inl h.operators⟩

theorem room (h : s.Clear ts) : s.depth + maxNesting = maxNesting := by
  rw [h.depth, Nat.zero_add]

/-- Without its reports the state is one in which nothing was wrong so far. -/
theorem forget (h : s.Clear ts) : s.forget.At ts where
  upcoming := h.upcoming
  quiet := ⟨rfl, h.panicking, h.operators, h.finish, h.standing.head, h.standing.ends⟩

theorem plus (h : s.Clear ts) (earlier : List Report) (errors : Nat) :
    (s.plus earlier errors).Clear ts :=
  ⟨h.upcoming, h.ends, h.finish, h.depth, h.operators, h.panicking, h.aborted⟩

end State.Clear

/-- A quiet state between statements is clear, and has counted nothing. -/
theorem State.At.clear {s : State} {ts : List Token} (h : s.At ts) (outer : s.depth = 0)
    (accurate : s.Accurate) : s.Clear ts ∧ s.errors = 0 := by
  have calm : s.aborted = false := by
    rw [← Bool.not_eq_true]
    intro gaveUp
    have panic := accurate.aborted gaveUp
    rw [h.quiet.panicking] at panic
    cases panic
  refine ⟨⟨h.upcoming, fun t mem => h.kind_ne mem, h.quiet.finish, outer, h.quiet.operators,
    h.quiet.panicking, calm⟩, ?_⟩
  rw [accurate.errors, h.quiet.reports]
  rfl

/-- Before the first token of a source without faults nothing was reported. -/
theorem clear_ofScan {source : String} {tokens : List Token}
    (items : (scan source).items = tokens.map .token) :
    (ofScan (scan source)).Clear tokens ∧ (ofScan (scan source)).errors = 0 :=
  (ofScan_at (scan_ended source) items).clear (ofScan_depth _) (ofScan_accurate _)

/-! ## The statements that remain -/

/-- The statements up to the end of the source, `most` at most. -/
def remaining (most : Nat) (s : State) : List Node × State :=
  statementList (fun _ => false) (statement most maxNesting) most s

/-- From the first state the statements `nodes` are read, and then those from the second on. -/
def Continues (most : Nat) (s : State) (nodes : List Node) (s' : State) : Prop :=
  remaining most s = (nodes ++ (remaining most s').1, (remaining most s').2)

theorem Continues.refl (most : Nat) (s : State) : Continues most s [] s := rfl

/-- Statements that are read on from one state to the next are read on together. -/
theorem Continues.trans {most : Nat} {s₁ s₂ s₃ : State} {xs ys : List Node}
    (h : Continues most s₁ xs s₂) (h' : Continues most s₂ ys s₃) :
    Continues most s₁ (xs ++ ys) s₃ := by
  rw [Continues, h, h', List.append_assoc]

theorem remaining_of_clear {s : State} (most : Nat) (h : s.Clear []) :
    remaining most s = ([], s) := by
  have last : s.atEnd = true := decide_eq_true (h.standing.kind_of_nil h.upcoming)
  exact statementList_of_stop (by rw [last]; rfl) most

/-- Away from the end one statement is read, and what remains behind it. -/
theorem continues_recovering {s : State} {t : Token} {ts : List Token} {most : Nat}
    (h : s.Clear (t :: ts)) (enough : s.upcoming.length ≤ most) :
    Continues most s [(recovering (statement most maxNesting) s).1]
      (recovering (statement most maxNesting) s).2 := by
  have inside : s.current.kind ≠ .endOfInput := by
    rw [(advance_of_tokens h.upcoming).1]
    exact h.ends t (List.mem_cons_self ..)
  have shorter := recovering_shortens most h.standing h.room inside
  have onward := (recovering_worksAt (statement_works most maxNesting) s h.room).onward
  obtain ⟨bound, rfl⟩ : ∃ bound, most = bound + 1 := ⟨most - 1, by omega⟩
  have goesOn : ¬(s.atEnd || false) = true := by simpa [State.atEnd] using inside
  -- the statement took an item, so the bound of one less is as good for what is behind it
  have same : statementList (fun _ => false) (statement (bound + 1) maxNesting) bound _ =
      remaining (bound + 1) _ :=
    statementList_congr bound (bound + 1) _ (onward.standing h.standing) (onward.depth ▸ h.room)
      (by omega) (by omega)
  rw [Continues, remaining, statementList, if_neg goesOn]
  dsimp only
  rw [same]
  rfl

/-! ## Segments -/

/-- Words that are read in the same way wherever they stand between two statements: as the
statements `nodes`, with so many reports. -/
structure Segment (words : List Word) (nodes : List Node) (errors : Nat) : Prop where
  begins : ∀ w ws, words = w :: ws → w.kind ∈ starts
  reads : ∀ {most : Nat} {s : State} {ts rest : List Token}, ts.map Token.word = words →
    Begins rest → s.Clear (ts ++ rest) → s.upcoming.length ≤ most →
    ∃ s', s'.Clear rest ∧ s'.errors = s.errors + errors ∧ Continues most s nodes s'

/-- If the words start a statement, or there are none and what follows does, so do the words with
what follows. -/
theorem Begins.append {ts rest : List Token} {words : List Word} (same : ts.map Token.word = words)
    (h : ∀ w ws, words = w :: ws → w.kind ∈ starts) (h' : Begins rest) : Begins (ts ++ rest) := by
  cases ts with
  | nil => exact h'
  | cons t ts =>
      rintro t' _ ⟨⟩
      exact h t.word (ts.map Token.word) same.symm

/-- No statement starts with `else`, so the one before it keeps its branches. -/
theorem Begins.no_else {rest : List Token} (h : Begins rest) : NoElse rest := by
  intro t ts same other
  have start := h t ts same
  rw [other] at start
  exact absurd start (by decide)

theorem Segment.nil : Segment [] [] 0 where
  begins := by simp
  reads := by
    intro most s ts rest words _ clear _
    rw [List.map_eq_nil_iff.mp words] at clear
    exact ⟨s, clear, rfl, .refl most s⟩

/-- One segment behind another is a segment. -/
theorem Segment.append {words others : List Word} {xs ys : List Node} {j k : Nat}
    (h : Segment words xs j) (h' : Segment others ys k) :
    Segment (words ++ others) (xs ++ ys) (j + k) where
  begins := by
    intro w ws same
    cases words with
    | nil => exact h'.begins w ws same
    | cons v vs =>
        cases same
        exact h.begins _ _ rfl
  reads := by
    intro most s ts rest same begins clear enough
    obtain ⟨us, vs, rfl, first, second⟩ := List.map_eq_append_iff.mp same
    rw [List.append_assoc] at clear
    obtain ⟨s₁, clear₁, errors₁, reads₁⟩ :=
      h.reads first (Begins.append second h'.begins begins) clear enough
    have enough₁ : s₁.upcoming.length ≤ most := by
      rw [clear.upcoming] at enough
      rw [clear₁.upcoming]
      simp only [List.length_map, List.length_append] at enough ⊢
      omega
    obtain ⟨s₂, clear₂, errors₂, reads₂⟩ := h'.reads second begins clear₁ enough₁
    exact ⟨s₂, clear₂, by omega, reads₁.trans reads₂⟩

/-- A source that spells a segment has the statements and the reports of the segment. -/
theorem Segment.parse_eq {source : String} {words : List Word} {nodes : List Node} {errors : Nat}
    (h : Segment words nodes errors) (spells : Spells source.toList words) :
    (parse source).tree = .seq nodes ∧ (parse source).errors = errors := by
  obtain ⟨tokens, items, same⟩ := spells_iff_scan.mp spells
  obtain ⟨clear, none⟩ := clear_ofScan items
  rw [← List.append_nil tokens] at clear
  obtain ⟨s, last, count, reads⟩ := h.reads same begins_nil clear (Nat.le_refl _)
  have whole : program (ofScan (scan source)) = (nodes, s) := by
    rw [Continues, remaining_of_clear _ last, List.append_nil] at reads
    exact reads
  rw [none, Nat.zero_add] at count
  rw [parse, whole]
  exact ⟨rfl, count⟩

/-! ## Accepted sources -/

/-- A statement of the grammar is read without a report, whatever was reported before. -/
theorem Grammar.Statement.recovering_eq {most : Nat} {ts rest : List Token} {node : Node}
    {s : State} (h : Statement maxOperators maxNesting ts node) (begins : Begins rest)
    (clear : s.Clear (ts ++ rest)) (enough : ts.length ≤ most) :
    ∃ s', recovering (statement most maxNesting) s = (node, s') ∧ s'.Clear rest ∧
      s'.errors = s.errors := by
  -- completeness is about states without reports, so they are taken away and put back
  obtain ⟨s', read, there⟩ := h.complete enough clear.forget fun _ => begins.no_else
  have works := statement_works most maxNesting s.forget clear.room
  rw [read] at works
  have accurate : s'.Accurate := by
    refine works.accurate ⟨rfl, fun gaveUp => ?_⟩
    cases clear.aborted.symm.trans gaveUp
  obtain ⟨behind, none⟩ := there.clear (works.onward.depth.trans clear.depth) accurate
  have ignores : (statement most maxNesting).Ignores s.reports s.errors :=
    statement_ignores most maxNesting
  have same := recovering_ignores ignores s.forget
  rw [forget_plus, recovering_of_quiet read there.quiet] at same
  refine ⟨s'.plus s.reports s.errors, same, behind.plus _ _, ?_⟩
  rw [State.plus, none, Nat.zero_add]

/-- A correct statement is a segment with one tree and no error, wherever it stands. -/
theorem Grammar.Statement.segment {ts : List Token} {node : Node}
    (h : Statement maxOperators maxNesting ts node) : Segment (ts.map Token.word) [node] 0 where
  begins := by
    obtain ⟨t, ts, rfl, start⟩ := h.head
    rintro w ws ⟨⟩
    exact start
  reads := by
    intro most s us rest same begins clear enough
    have h' := h.of_words same
    obtain ⟨t, us, rfl, -⟩ := h'.head
    have le : (t :: us).length ≤ most := by
      rw [clear.upcoming, List.length_map, List.length_append] at enough
      omega
    obtain ⟨s', read, behind, count⟩ := h'.recovering_eq begins clear le
    have reads := continues_recovering clear enough
    rw [read] at reads
    exact ⟨s', behind, count, reads⟩

/-- By induction on the derivation, one segment behind the other. -/
theorem Grammar.Statements.segment {ts : List Token} {nodes : List Node}
    (h : Statements maxOperators maxNesting ts nodes) : Segment (ts.map Token.word) nodes 0 := by
  induction nodes generalizing ts with
  | nil =>
      cases h
      exact .nil
  | cons node nodes ih =>
      cases h with
      | cons first others =>
          rw [List.map_append]
          exact first.segment.append (ih others)

/-- An accepted source is a segment. -/
theorem segment_of_accepted {source : String} {tree : Node} (h : readProgram source = .ok tree) :
    ∃ words nodes, Spells source.toList words ∧ Segment words nodes 0 := by
  obtain ⟨words, spells, derives⟩ := readProgram_eq_ok_iff_words.mp h
  obtain ⟨tokens, -, same⟩ := spells_iff_scan.mp spells
  have derives' := derives.of_words (sameWords_tokens words same)
  cases derives' with
  | whole statements => exact ⟨words, _, spells, same ▸ statements.segment⟩

/-! ## Attempted statements -/

/-- The words of an attempted statement. -/
inductive Attempt : List Word → Prop where
  | words {first : Word} {plain : List Word} :
      first.kind = .name ∨ first.kind = .out → plain.length ≤ 120 →
      (∀ w ∈ plain, w.kind.isPlain = true) →
      Attempt (first :: (plain ++ [⟨.semicolon, ";"⟩]))

/-- A text of the words of an attempted statement. -/
def Attempted (text : String) : Prop :=
  ∃ words, Spells text.toList words ∧ Attempt words

/-- In any place an attempted statement is read as it is on its own. -/
theorem Attempt.agrees {words : List Word} (h : Attempt words) {s t : State}
    {ts us rest : List Token} (same : ts.map Token.word = words)
    (same' : us.map Token.word = words) (begins : Begins rest) (clear : s.Clear (ts ++ rest))
    (clear' : t.Clear us) (none : t.errors = 0) (most most' : Nat) :
    let here := recovering (statement most maxNesting) s
    let alone := recovering (statement most' maxNesting) t
    here.1 = alone.1 ∧ here.2.Clear rest ∧ here.2.errors = s.errors + alone.2.errors ∧
      alone.2.errors ≤ 1 := by
  cases h with
  | @words first plain simple short others =>
      obtain ⟨f, ts, rfl, word, words⟩ := List.map_eq_cons_iff.mp same
      obtain ⟨f', us, rfl, word', words'⟩ := List.map_eq_cons_iff.mp same'
      have kind : f.kind = first.kind := congrArg Word.kind word
      have remains : Remains .semicolon (plain ++ [⟨.semicolon, ";"⟩]) :=
        remains_semicolon others rfl
      have some : ts ≠ [] := by
        rintro rfl
        simp at words
      have length := congrArg List.length words
      simp only [List.length_map, List.length_append, List.length_singleton] at length
      rw [← List.append_nil us] at clear'
      obtain ⟨same, behind, -, k, le, count, count'⟩ :=
        recovering_agrees ⟨.semicolon, rest, begins, s.errors⟩ ⟨.semicolon, [], begins_nil, 0⟩
          clear clear' rfl rfl rfl none (kind ▸ simple) (word.trans word'.symm)
          (words.trans words'.symm) (words ▸ remains) some (by omega) most most'
      simp only at count count'
      exact ⟨same, behind, by omega, by omega⟩

/-- An attempted statement starts with a name or with `out`. -/
theorem Attempt.head {words : List Word} (h : Attempt words) :
    ∃ w ws, words = w :: ws ∧ (w.kind = .name ∨ w.kind = .out) := by
  cases h with
  | words simple => exact ⟨_, _, rfl, simple⟩

/-- What starts like an assignment or an output is read as one. -/
theorem recovering_kind (most levels : Nat) {s : State}
    (simple : s.current.kind = .name ∨ s.current.kind = .out) :
    let node := (recovering (statement most (levels + 1)) s).1
    node.kind = .assign ∨ node.kind = .out := by
  have current : { s with depth := s.depth + 1 }.current = s.current := rfl
  simp only [recovering, statement, Parser.nested_eq, statementByKind, current]
  rcases simple with name | out
  · rw [name]
    exact .inl rfl
  · rw [out]
    exact .inr rfl

/-- An attempted statement is a segment of one statement, and it is reported on once at most. -/
theorem Attempt.segment {text : String} {words : List Word} (h : Attempt words)
    (spells : Spells text.toList words) :
    ∃ node errors, Segment words [node] errors ∧ errors ≤ 1 ∧
      (node.kind = .assign ∨ node.kind = .out) := by
  obtain ⟨first, others, rfl, simple⟩ := h.head
  obtain ⟨tokens, items, same⟩ := spells_iff_scan.mp spells
  obtain ⟨clear, none⟩ := clear_ofScan items
  -- the node and the count are those of the text on its own, and every place agrees with it
  let alone := recovering (statement 0 maxNesting) (ofScan (scan text))
  refine ⟨alone.1, alone.2.errors, ⟨?_, ?_⟩, ?_, ?_⟩
  · rintro w ws ⟨⟩
    exact mem_starts simple
  · intro most s ts rest same' begins clear' enough
    obtain ⟨node, behind, count, -⟩ := h.agrees same' same begins clear' clear none most 0
    obtain ⟨f, ts, rfl, -⟩ := List.map_eq_cons_iff.mp same'
    have reads := continues_recovering clear' enough
    rw [node] at reads
    exact ⟨_, behind, count, reads⟩
  · have clear' : (ofScan (scan text)).Clear (tokens ++ []) := by rwa [List.append_nil]
    exact (h.agrees same same begins_nil clear' clear none 0 0).2.2.2
  · obtain ⟨f, ts, rfl, word, -⟩ := List.map_eq_cons_iff.mp same
    have kind : (ofScan (scan text)).current.kind = first.kind := by
      rw [(advance_of_tokens clear.upcoming).1]
      exact congrArg Word.kind word
    exact recovering_kind 0 127 (by rwa [kind])

/-- The words of an attempted statement may stand with a space between any two. -/
theorem attempted_spaced {words : List Word} (h : Attempt words)
    (each : ∀ w ∈ words, Lexeme w.kind w.text.toList) :
    Attempted (" ".intercalate (words.map Word.text)) :=
  ⟨words, spells_spaced each, h⟩

/-! ## Whole sources -/

/-- The statements of a tree that is a list of them. -/
def Node.statements : Node → List Node
  | .seq nodes => nodes
  | _ => []

/-- The text is a segment, with the statements and the reports that it has on its own. -/
def SelfContained (text : String) : Prop :=
  ∃ words, Spells text.toList words ∧
    Segment words (parse text).tree.statements (parse text).errors

/-- A text that spells a segment is self-contained: its words may be read in any place. -/
theorem Segment.selfContained {text : String} {words : List Word} {nodes : List Node}
    {errors : Nat} (h : Segment words nodes errors) (spells : Spells text.toList words) :
    SelfContained text := by
  obtain ⟨tree, count⟩ := h.parse_eq spells
  refine ⟨words, spells, ?_⟩
  rw [tree, count]
  exact h

/-- A correct program is self-contained. -/
theorem selfContained_of_accepted {text : String} {tree : Node} (h : readProgram text = .ok tree) :
    SelfContained text := by
  obtain ⟨words, nodes, spells, segment⟩ := segment_of_accepted h
  exact segment.selfContained spells

theorem Attempted.selfContained {text : String} (h : Attempted text) : SelfContained text := by
  obtain ⟨words, spells, attempt⟩ := h
  obtain ⟨node, errors, segment, -⟩ := attempt.segment spells
  exact segment.selfContained spells

/-- On its own an attempted statement is one statement and is reported on once at most. -/
theorem Attempted.parse_eq {text : String} (h : Attempted text) :
    (parse text).errors ≤ 1 ∧
      ∃ node, (parse text).tree = .seq [node] ∧ (node.kind = .assign ∨ node.kind = .out) := by
  obtain ⟨words, spells, attempt⟩ := h
  obtain ⟨node, errors, segment, once, simple⟩ := attempt.segment spells
  obtain ⟨tree, count⟩ := segment.parse_eq spells
  exact ⟨count ▸ once, node, tree, simple⟩

/-- The lines of texts that are segments are one segment. -/
theorem segment_of_lines {texts : List String} (each : ∀ text ∈ texts, SelfContained text) :
    ∃ words, Spells ("\n".intercalate texts).toList words ∧
      Segment words (texts.flatMap fun text => (parse text).tree.statements)
        (texts.map fun text => (parse text).errors).sum := by
  induction texts with
  | nil => exact ⟨[], .done (.closed .nil), .nil⟩
  | cons text texts ih =>
      obtain ⟨⟨words, spells, segment⟩, rest⟩ := List.forall_mem_cons.mp each
      obtain ⟨others, spells', segment'⟩ := ih rest
      cases texts with
      | nil =>
          refine ⟨words, ?_, ?_⟩
          · rwa [String.intercalate_singleton]
          · simpa using segment
      | cons next texts =>
          exact ⟨words ++ others, spells.line spells', segment.append segment'⟩

/-- A broken statement harms nothing else.  Of a source made of accepted sources and attempted
statements, on lines of their own, each attempted statement alone is one statement with one report
or none.  The source has as many reports as its segments have on their own, and its statements are
the statements of the segments in turn. -/
theorem parse_segments (texts : List String)
    (each : ∀ text ∈ texts, (∃ tree, readProgram text = .ok tree) ∨ Attempted text) :
    (∀ text ∈ texts, Attempted text → (parse text).errors ≤ 1 ∧
      ∃ node, (parse text).tree = .seq [node] ∧ (node.kind = .assign ∨ node.kind = .out)) ∧
    (parse ("\n".intercalate texts)).errors = (texts.map fun text => (parse text).errors).sum ∧
    (parse ("\n".intercalate texts)).tree =
      .seq (texts.flatMap fun text => (parse text).tree.statements) := by
  have alone : ∀ text ∈ texts, SelfContained text := by
    intro text mem
    rcases each text mem with ⟨tree, accepted⟩ | attempted
    · exact selfContained_of_accepted accepted
    · exact attempted.selfContained
  obtain ⟨words, spells, segment⟩ := segment_of_lines alone
  obtain ⟨tree, count⟩ := segment.parse_eq spells
  exact ⟨fun text _ attempted => attempted.parse_eq, count, tree⟩

/-- The first line has its semicolon where an operand has to stand, and there it is stepped over.
The last line has a name between the report and its end. -/
theorem parse_segments_operand :
    (Attempted "x = 1 + ;" ∧ (∃ tree, readProgram "out x; // one" = .ok tree) ∧
      Attempted "out ) y ;") ∧
    (parse "x = 1 + ;\nout x; // one\nout ) y ;").errors = 2 ∧
    (parse "x = 1 + ;\nout x; // one\nout ) y ;").tree =
      .seq [.assign "x" (.arith .add (.num 1) (.num 0)), .out (.var "x"), .out (.num 0)] := by
  have first : Attempted "x = 1 + ;" := by
    have attempt : Attempt
        (⟨.name, "x"⟩ :: ([⟨.assign, "="⟩, ⟨.number, "1"⟩, ⟨.plus, "+"⟩] ++ [⟨.semicolon, ";"⟩])) :=
      .words (.inl rfl) (by decide) (by decide)
    refine attempted_spaced attempt ?_
    simp only [List.cons_append, List.nil_append, List.forall_mem_cons]
    exact ⟨@Lexeme.name 'x' [] (by decide) nofun (by decide), .fixed (by decide),
      @Lexeme.number '1' [] (by decide) nofun, .fixed (by decide), .fixed (by decide), nofun⟩
  have second : readProgram "out x; // one" = .ok (.seq [.out (.var "x")]) := by
    with_unfolding_all rfl
  have third : Attempted "out ) y ;" := by
    have attempt : Attempt
        (⟨.out, "out"⟩ :: ([⟨.closeParen, ")"⟩, ⟨.name, "y"⟩] ++ [⟨.semicolon, ";"⟩])) :=
      .words (.inr rfl) (by decide) (by decide)
    refine attempted_spaced attempt ?_
    simp only [List.cons_append, List.nil_append, List.forall_mem_cons]
    exact ⟨.fixed (by decide), .fixed (by decide),
      @Lexeme.name 'y' [] (by decide) nofun (by decide), .fixed (by decide), nofun⟩
  have each : ∀ text ∈ ["x = 1 + ;", "out x; // one", "out ) y ;"],
      (∃ tree, readProgram text = .ok tree) ∨ Attempted text := by
    simp only [List.forall_mem_cons]
    exact ⟨.inr first, .inl ⟨_, second⟩, .inr third, nofun⟩
  obtain ⟨-, count, tree⟩ := parse_segments _ each
  have errors : (["x = 1 + ;", "out x; // one", "out ) y ;"].map
      fun text => (parse text).errors).sum = 2 := by decide +kernel
  have nodes : (["x = 1 + ;", "out x; // one", "out ) y ;"].flatMap
      fun text => (parse text).tree.statements) =
        [.assign "x" (.arith .add (.num 1) (.num 0)), .out (.var "x"), .out (.num 0)] := by
    with_unfolding_all rfl
  rw [errors] at count
  rw [nodes] at tree
  exact ⟨⟨first, ⟨_, second⟩, third⟩, count, tree⟩

end WhenLoop
