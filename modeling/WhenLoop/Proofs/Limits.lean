import WhenLoop.Proofs.RoundTrip

/-!
# Where the limits lie

The language has a limit of 128 levels of nesting and one of 512 operators.  A source that derives
from the grammar but for the limits is accepted exactly if it is within both (`parse_limits`).
Statements, groups and prefix operators open levels, and so does every whole expression and
condition.

The last of these is not what the limit is meant to count.  `BareProgram` is the grammar in which
only statements, groups and prefix operators open levels.  A source with 128 of these levels may
well be refused (`parse_signs_refused`).  What is true is that an accepted source has at most 128
of them, and that a source with at most 127 is accepted if its operators are few.

Behind this is that a source derives in one way only.  The words of a statement tell where its
parts end (`Statement.align`), so any two derivations of a source have the same expressions and
conditions, and each of these has as many operators as it has signs.  Within the operator limit
reading is complete for any number of levels, and reading is a function, so there is one tree.
-/

namespace WhenLoop

namespace Grammar

/-! ## One level more -/

/-- By induction on the derivation: a level more is to spare at every step of it. -/
theorem Phrase.deepen {rank : Rank} {levels k : Nat} {ts : List Token} {node : Node}
    (h : Phrase rank levels k ts node) : Phrase rank (levels + 1) k ts node := by
  induction h with
  | number kind value le => exact .number kind value le
  | name kind => exact .name kind
  | group opens _ closes ih => exact .group opens ih closes
  | ofPrimary _ ih => exact .ofPrimary ih
  | negative sign _ integer ih => exact .negative sign ih integer
  | ofUnary _ ih => exact .ofUnary ih
  | product _ sign _ il ir ihl ihr => exact .product ihl sign ihr il ir
  | ofFactor _ ih => exact .ofFactor ih
  | sum _ sign _ il ir ihl ihr => exact .sum ihl sign ihr il ir
  | ofTerm _ ih => exact .ofTerm ih
  | compare _ sign _ il ir ihl ihr => exact .compare ihl sign ihr il ir
  | ofComparison _ ih => exact .ofComparison ih
  | negation sign _ ih => exact .negation sign ih
  | ofNot _ ih => exact .ofNot ih
  | conjunction _ sign _ ihl ihr => exact .conjunction ihl sign ihr
  | ofAnd _ ih => exact .ofAnd ih
  | disjunction _ sign _ ihl ihr => exact .disjunction ihl sign ihr

variable {most levels : Nat} {ts : List Token} {node : Node} {nodes : List Node}

theorem Expression.deepen (h : Expression most levels ts node) :
    Expression most (levels + 1) ts node := by
  cases h with
  | whole phrase le integer => exact .whole phrase.deepen le integer

theorem Condition.deepen (h : Condition most levels ts node) :
    Condition most (levels + 1) ts node := by
  cases h with
  | whole phrase le => exact .whole phrase.deepen le

mutual

/-- By recursion on the derivation of a statement and of a list of them. -/
theorem Statement.deepen {most : Nat} : ∀ {levels : Nat} {ts : List Token} {node : Node},
    Statement most levels ts node → Statement most (levels + 1) ts node
  | _, _, _, .assign ht hs h he => .assign ht hs h.deepen he
  | _, _, _, .out hw h he => .out hw h.deepen he
  | _, _, _, .when hw hl h hr hb => .when hw hl h.deepen hr hb.deepen
  | _, _, _, .whenElse hw hl h hr hb closed ho hb' =>
      .whenElse hw hl h.deepen hr hb.deepen closed ho hb'.deepen
  | _, _, _, .loop hw hl h hr hb => .loop hw hl h.deepen hr hb.deepen
  | _, _, _, .block hl hs hr => .block hl hs.deepen hr

theorem Statements.deepen {most : Nat} :
    ∀ {levels : Nat} {ts : List Token} {nodes : List Node},
      Statements most levels ts nodes → Statements most (levels + 1) ts nodes
  | _, _, _, .nil => .nil
  | _, _, _, .cons h hs => .cons h.deepen hs.deepen

end

theorem Statements.mono (h : Statements most levels ts nodes) {more : Nat} (le : levels ≤ more) :
    Statements most more ts nodes := by
  induction le with
  | refl => exact h
  | step _ ih => exact ih.deepen

/-! ## Levels of statements, groups and prefix operators -/

mutual

/-- A statement as `Statement` has it, in which a whole expression or condition opens no level of
its own. -/
inductive BareStatement (most : Nat) : (levels : Nat) → List Token → Node → Prop where
  | assign {levels : Nat} {target sign stop : Token} {ts : List Token} {value : Node} :
      target.kind = .name → sign.kind = .assign → Expression most (levels + 1) ts value →
      stop.kind = .semicolon →
      BareStatement most (levels + 1) (target :: sign :: ts ++ [stop]) (.assign target.text value)
  | out {levels : Nat} {word stop : Token} {ts : List Token} {value : Node} :
      word.kind = .out → Expression most (levels + 1) ts value → stop.kind = .semicolon →
      BareStatement most (levels + 1) (word :: ts ++ [stop]) (.out value)
  | when {levels : Nat} {word l r : Token} {cs ts : List Token} {test thenBranch : Node} :
      word.kind = .when → l.kind = .openParen → Condition most (levels + 1) cs test →
      r.kind = .closeParen → BareStatement most levels ts thenBranch →
      BareStatement most (levels + 1) (word :: l :: cs ++ r :: ts) (.when test thenBranch none)
  | whenElse {levels : Nat} {word l r other : Token} {cs ts us : List Token}
      {test thenBranch elseBranch : Node} :
      word.kind = .when → l.kind = .openParen → Condition most (levels + 1) cs test →
      r.kind = .closeParen → BareStatement most levels ts thenBranch →
      thenBranch.endsOpen = false →
      other.kind = .otherwise → BareStatement most levels us elseBranch →
      BareStatement most (levels + 1) (word :: l :: cs ++ r :: ts ++ other :: us)
        (.when test thenBranch (some elseBranch))
  | loop {levels : Nat} {word l r : Token} {cs ts : List Token} {test body : Node} :
      word.kind = .loop → l.kind = .openParen → Condition most (levels + 1) cs test →
      r.kind = .closeParen → BareStatement most levels ts body →
      BareStatement most (levels + 1) (word :: l :: cs ++ r :: ts) (.loop test body)
  | block {levels : Nat} {l r : Token} {ts : List Token} {nodes : List Node} :
      l.kind = .openBrace → BareStatements most levels ts nodes → r.kind = .closeBrace →
      BareStatement most (levels + 1) (l :: ts ++ [r]) (.seq nodes)

/-- Statements one after the other, with levels as `BareStatement` has them. -/
inductive BareStatements (most : Nat) : (levels : Nat) → List Token → List Node → Prop where
  | nil {levels : Nat} : BareStatements most levels [] []
  | cons {levels : Nat} {ts us : List Token} {node : Node} {nodes : List Node} :
      BareStatement most levels ts node → BareStatements most levels us nodes →
      BareStatements most levels (ts ++ us) (node :: nodes)

end

/-- A program in which only statements, groups and prefix operators open levels. -/
inductive BareProgram (most levels : Nat) : List Token → Node → Prop where
  | whole {ts : List Token} {nodes : List Node} :
      BareStatements most levels ts nodes → BareProgram most levels ts (.seq nodes)

mutual

/-- The levels that are not counted may be left unused. -/
theorem Statement.bare {most : Nat} : ∀ {levels : Nat} {ts : List Token} {node : Node},
    Statement most levels ts node → BareStatement most levels ts node
  | _, _, _, .assign ht hs h he => .assign ht hs h.deepen he
  | _, _, _, .out hw h he => .out hw h.deepen he
  | _, _, _, .when hw hl h hr hb => .when hw hl h.deepen hr hb.bare
  | _, _, _, .whenElse hw hl h hr hb closed ho hb' =>
      .whenElse hw hl h.deepen hr hb.bare closed ho hb'.bare
  | _, _, _, .loop hw hl h hr hb => .loop hw hl h.deepen hr hb.bare
  | _, _, _, .block hl hs hr => .block hl hs.bare hr

/-- Without the level of whole expressions the levels are enough all the more. -/
theorem Statements.bare {most : Nat} :
    ∀ {levels : Nat} {ts : List Token} {nodes : List Node},
      Statements most levels ts nodes → BareStatements most levels ts nodes
  | _, _, _, .nil => .nil
  | _, _, _, .cons h hs => .cons h.bare hs.bare

end

mutual

/-- Along any chain of constructs there is one whole expression or condition at most, so one level
more is enough for all. -/
theorem BareStatement.statement {most : Nat} : ∀ {levels : Nat} {ts : List Token} {node : Node},
    BareStatement most levels ts node → Statement most (levels + 1) ts node
  | _, _, _, .assign ht hs h he => .assign ht hs h he
  | _, _, _, .out hw h he => .out hw h he
  | _, _, _, .when hw hl h hr hb => .when hw hl h hr hb.statement
  | _, _, _, .whenElse hw hl h hr hb closed ho hb' =>
      .whenElse hw hl h hr hb.statement closed ho hb'.statement
  | _, _, _, .loop hw hl h hr hb => .loop hw hl h hr hb.statement
  | _, _, _, .block hl hs hr => .block hl hs.statements hr

/-- With one level more there is room for that of each whole expression. -/
theorem BareStatements.statements {most : Nat} :
    ∀ {levels : Nat} {ts : List Token} {nodes : List Node},
      BareStatements most levels ts nodes → Statements most (levels + 1) ts nodes
  | _, _, _, .nil => .nil
  | _, _, _, .cons h hs => .cons h.statement hs.statements

end

theorem Program.bare (h : Program most levels ts node) : BareProgram most levels ts node := by
  cases h with
  | whole statements => exact .whole statements.bare

theorem BareProgram.program (h : BareProgram most levels ts node) :
    Program most (levels + 1) ts node := by
  cases h with
  | whole statements => exact .whole statements.statements

/-! ## Two derivations of one source -/

/-- The kind of the token that a statement starts with. -/
def opener : NodeKind → TokenKind
  | .assign => .name
  | .out => .out
  | .when => .when
  | .loop => .loop
  | _ => .openBrace

/-- The first token tells what kind of statement it is. -/
theorem Statement.opener_eq (h : Statement most levels ts node) :
    ∃ t us, ts = t :: us ∧ t.kind = opener node.kind := by
  cases h with
  | assign target => exact ⟨_, _, rfl, target⟩
  | out word => exact ⟨_, _, rfl, word⟩
  | when word => exact ⟨_, _, rfl, word⟩
  | whenElse word => exact ⟨_, _, rfl, word⟩
  | loop word => exact ⟨_, _, rfl, word⟩
  | block brace => exact ⟨_, _, rfl, brace⟩

section Align

variable {most' levels' : Nat} {ts' us us' : List Token} {node' : Node}

/-- What is derived from the same tokens starts in the same way. -/
theorem Statement.opener_congr (h : Statement most levels ts node)
    (h' : Statement most' levels' ts' node') (same : ts ++ us = ts' ++ us') :
    opener node.kind = opener node'.kind := by
  obtain ⟨t, vs, rfl, kind⟩ := h.opener_eq
  obtain ⟨t', vs', rfl, kind'⟩ := h'.opener_eq
  obtain ⟨rfl, -⟩ := List.cons.inj same
  rw [← kind, ← kind']

/-- A whole expression ends at the first semicolon, and its operators are told by its tokens. -/
theorem Expression.align {stop stop' : Token} (h : Expression most levels ts node)
    (h' : Expression most' levels' ts' node') (ends : stop.kind = .semicolon)
    (ends' : stop'.kind = .semicolon) (same : ts ++ stop :: us = ts' ++ stop' :: us') :
    (ts = ts' ∧ stop = stop' ∧ us = us') ∧ Expression most' levels ts node := by
  cases h with
  | whole phrase le integer =>
      cases h' with
      | whole phrase' le' =>
          have none := phrase.regular.count_eq (p := (· == .semicolon)) (by decide)
          have none' := phrase'.regular.count_eq (p := (· == .semicolon)) (by decide)
          obtain ⟨rfl, rfl⟩ := split_of_count same (by rw [ends]; rfl) (by rw [ends']; rfl)
            (none.trans none'.symm)
          obtain ⟨rfl, -⟩ := List.cons.inj (List.append_cancel_left same)
          rw [← phrase'.regular.operators, phrase.regular.operators] at le'
          exact ⟨⟨rfl, rfl, rfl⟩, .whole phrase le' integer⟩

/-- A whole condition ends at the parenthesis that closes it. -/
theorem Condition.align {r r' : Token} (h : Condition most levels ts node)
    (h' : Condition most' levels' ts' node') (closes : r.kind = .closeParen)
    (closes' : r'.kind = .closeParen) (same : ts ++ r :: us = ts' ++ r' :: us') :
    (ts = ts' ∧ r = r' ∧ us = us') ∧ Condition most' levels ts node := by
  cases h with
  | whole phrase le =>
      cases h' with
      | whole phrase' le' =>
          obtain ⟨rfl, rfl⟩ :=
            phrase.regular.balanced.closing phrase'.regular.balanced closes closes' same
          obtain ⟨rfl, -⟩ := List.cons.inj (List.append_cancel_left same)
          rw [← phrase'.regular.operators, phrase.regular.operators] at le'
          exact ⟨⟨rfl, rfl, rfl⟩, .whole phrase le'⟩

end Align

/-- No statement goes on behind a list of statements. -/
def Behind (us : List Token) : Prop := ∀ t vs, us = t :: vs → t.kind = .closeBrace

theorem behind_nil : Behind [] := nofun

theorem behind_cons {r : Token} (closes : r.kind = .closeBrace) (us : List Token) :
    Behind (r :: us) := by
  rintro t vs ⟨⟩
  exact closes

/-- Behind one statement of a list is another one or the end of the list. -/
theorem Statements.no_else (h : Statements most levels ts nodes) {us : List Token}
    (last : Behind us) : NoElse (ts ++ us) := by
  intro t vs same isElse
  cases h with
  | nil => cases isElse.symm.trans (last t vs same)
  | cons first _ =>
      obtain ⟨t', ts, rfl, start⟩ := first.head
      obtain ⟨rfl, -⟩ := List.cons.inj same
      simp [isElse, starts] at start

/-- A statement does not start where none goes on. -/
theorem Statement.not_behind (h : Statement most levels ts node) {us : List Token} :
    ¬ Behind (ts ++ us) := by
  intro last
  obtain ⟨t, ts, rfl, start⟩ := h.head
  simp [last t (ts ++ us) rfl, starts] at start

mutual

/-- Two derivations of statements from the same tokens end at the same token.  The operators of
either one are those of the other. -/
theorem Statement.align {most most' : Nat} : ∀ {levels : Nat} {ts : List Token} {node : Node},
    Statement most levels ts node →
    ∀ {levels' : Nat} {ts' us us' : List Token} {node' : Node},
      Statement most' levels' ts' node' → ts ++ us = ts' ++ us' →
      (node.endsOpen = true → NoElse us) → (node'.endsOpen = true → NoElse us') →
      (ts = ts' ∧ us = us') ∧ Statement most' levels ts node
  | _, _, _, .assign ht hs h he, _, _, _, _, _, other, same, _, _ => by
      have kinds := (Statement.assign ht hs h he).opener_congr other same
      cases other with
      | assign ht' hs' h' he' =>
          simp only [List.cons_append, List.append_assoc, List.nil_append, List.cons.injEq] at same
          obtain ⟨rfl, rfl, same⟩ := same
          obtain ⟨⟨rfl, rfl, rfl⟩, value⟩ := h.align h' he he' same
          exact ⟨⟨rfl, rfl⟩, .assign ht hs value he⟩
      | _ => cases kinds
  | _, _, _, .out hw h he, _, _, _, _, _, other, same, _, _ => by
      have kinds := (Statement.out hw h he).opener_congr other same
      cases other with
      | out hw' h' he' =>
          simp only [List.cons_append, List.append_assoc, List.nil_append, List.cons.injEq] at same
          obtain ⟨rfl, same⟩ := same
          obtain ⟨⟨rfl, rfl, rfl⟩, value⟩ := h.align h' he he' same
          exact ⟨⟨rfl, rfl⟩, .out hw value he⟩
      | _ => cases kinds
  | _, _, _, .when hw hl h hr hb, _, _, _, _, _, other, same, last, last' => by
      have kinds := (Statement.when hw hl h hr hb).opener_congr other same
      cases other with
      | when hw' hl' h' hr' hb' =>
          simp only [List.cons_append, List.append_assoc, List.cons.injEq] at same
          obtain ⟨rfl, rfl, same⟩ := same
          obtain ⟨⟨rfl, rfl, rest⟩, test⟩ := h.align h' hr hr' same
          obtain ⟨⟨rfl, rfl⟩, branch⟩ := hb.align hb' rest (fun _ => last rfl) fun _ => last' rfl
          exact ⟨⟨rfl, rfl⟩, .when hw hl test hr branch⟩
      | whenElse hw' hl' h' hr' hb' closed' ho' hb'' =>
          -- the `else` of the one would be behind the other, which could take it
          simp only [List.cons_append, List.append_assoc, List.cons.injEq] at same
          obtain ⟨rfl, rfl, same⟩ := same
          obtain ⟨⟨rfl, rfl, rest⟩, test⟩ := h.align h' hr hr' same
          obtain ⟨⟨rfl, rfl⟩, branch⟩ := hb.align hb' rest (fun _ => last rfl) (by simp [closed'])
          exact absurd ho' (last rfl _ _ rfl)
      | _ => cases kinds
  | _, _, _, .whenElse hw hl h hr hb closed ho hbElse, _, _, _, _, _, other, same, last, last' => by
      have kinds := (Statement.whenElse hw hl h hr hb closed ho hbElse).opener_congr other same
      cases other with
      | when hw' hl' h' hr' hb' =>
          simp only [List.cons_append, List.append_assoc, List.cons.injEq] at same
          obtain ⟨rfl, rfl, same⟩ := same
          obtain ⟨⟨rfl, rfl, rest⟩, test⟩ := h.align h' hr hr' same
          obtain ⟨⟨rfl, rfl⟩, branch⟩ := hb.align hb' rest (by simp [closed]) fun _ => last' rfl
          exact absurd ho (last' rfl _ _ rfl)
      | whenElse hw' hl' h' hr' hb' closed' ho' hbElse' =>
          simp only [List.cons_append, List.append_assoc, List.cons.injEq] at same
          obtain ⟨rfl, rfl, same⟩ := same
          obtain ⟨⟨rfl, rfl, rest⟩, test⟩ := h.align h' hr hr' same
          obtain ⟨⟨rfl, rest'⟩, branch⟩ := hb.align hb' rest (by simp [closed]) (by simp [closed'])
          obtain ⟨rfl, behind⟩ := List.cons.inj rest'
          obtain ⟨⟨rfl, rfl⟩, branch'⟩ := hbElse.align hbElse' behind last last'
          exact ⟨⟨rfl, rfl⟩, .whenElse hw hl test hr branch closed ho branch'⟩
      | _ => cases kinds
  | _, _, _, .loop hw hl h hr hb, _, _, _, _, _, other, same, last, last' => by
      have kinds := (Statement.loop hw hl h hr hb).opener_congr other same
      cases other with
      | loop hw' hl' h' hr' hb' =>
          simp only [List.cons_append, List.append_assoc, List.cons.injEq] at same
          obtain ⟨rfl, rfl, same⟩ := same
          obtain ⟨⟨rfl, rfl, rest⟩, test⟩ := h.align h' hr hr' same
          obtain ⟨⟨rfl, rfl⟩, body⟩ := hb.align hb' rest last last'
          exact ⟨⟨rfl, rfl⟩, .loop hw hl test hr body⟩
      | _ => cases kinds
  | _, _, _, .block hl hs hr, _, _, _, _, _, other, same, _, _ => by
      have kinds := (Statement.block hl hs hr).opener_congr other same
      cases other with
      | block hl' hs' hr' =>
          simp only [List.cons_append, List.append_assoc, List.nil_append, List.cons.injEq] at same
          obtain ⟨rfl, same⟩ := same
          obtain ⟨⟨rfl, rest⟩, statements⟩ :=
            hs.align hs' same (behind_cons hr _) (behind_cons hr' _)
          obtain ⟨rfl, rfl⟩ := List.cons.inj rest
          exact ⟨⟨rfl, rfl⟩, .block hl statements hr⟩
      | _ => cases kinds

/-- Two lists of statements at the start of one text, behind which no statement goes on, are the
same tokens.  So what was derived for the one keeps to the other's bound on operators, and to its
own levels. -/
theorem Statements.align {most most' : Nat} :
    ∀ {levels : Nat} {ts : List Token} {nodes : List Node}, Statements most levels ts nodes →
      ∀ {levels' : Nat} {ts' us us' : List Token} {nodes' : List Node},
        Statements most' levels' ts' nodes' → ts ++ us = ts' ++ us' → Behind us → Behind us' →
        (ts = ts' ∧ us = us') ∧ Statements most' levels ts nodes
  | _, _, _, .nil, _, _, _, _, _, other, same, last, _ => by
      cases other with
      | nil => exact ⟨⟨rfl, same⟩, .nil⟩
      | cons h' _ =>
          rw [List.nil_append, List.append_assoc] at same
          exact absurd (same ▸ last) h'.not_behind
  | _, _, _, .cons h hs, _, _, _, _, _, other, same, last, last' => by
      cases other with
      | nil =>
          rw [List.nil_append, List.append_assoc] at same
          exact absurd (same ▸ last') h.not_behind
      | cons h' hs' =>
          rw [List.append_assoc, List.append_assoc] at same
          obtain ⟨⟨rfl, rest⟩, first⟩ :=
            h.align h' same (fun _ => hs.no_else last) fun _ => hs'.no_else last'
          obtain ⟨⟨rfl, rfl⟩, others⟩ := hs.align hs' rest last last'
          exact ⟨⟨rfl, rfl⟩, .cons first others⟩

end

/-- One derivation has the levels and another one the operators, and then one has both. -/
theorem Program.align {most' levels' : Nat} {tree tree' : Node} (h : Program most levels ts tree)
    (h' : Program most' levels' ts tree') : Program most' levels ts tree := by
  cases h with
  | whole statements =>
      cases h' with
      | whole statements' =>
          exact .whole (statements.align statements' rfl behind_nil behind_nil).2

end Grammar

open Grammar

/-! ## Sources within the limits -/

/-- Within the operator limit the tokens of a source have one tree, whatever the levels. -/
theorem Grammar.Program.unique {source : String} {tokens : List Token} {tree tree' : Node}
    {levels levels' : Nat} (items : (scan source).items = tokens.map .token)
    (h : Program maxOperators levels tokens tree) (h' : Program maxOperators levels' tokens tree') :
    tree = tree' := by
  have start : (State.ofScan (scan source)).At (tokens ++ []) := by
    rw [List.append_nil]
    exact State.ofScan_at (scan_ended source) items
  -- both are what the same reading gives, with levels enough for either
  have read : ∀ {levels nodes}, Statements maxOperators levels tokens nodes →
      (statementList (fun _ => false) (statement tokens.length levels) tokens.length
        (.ofScan (scan source))).1 = nodes := by
    intro levels nodes derives
    obtain ⟨s, same, -⟩ := derives.complete (Nat.le_refl _) (Nat.le_refl _) start (fun _ _ => rfl)
      nofun nofun
    rw [same]
  cases h with
  | whole statements =>
      cases h' with
      | whole statements' =>
          have nodes := read (statements.mono (Nat.le_max_left levels levels'))
          rw [read (statements'.mono (Nat.le_max_right levels levels'))] at nodes
          rw [nodes]

/-- A source that derives from the grammar but for the limits is accepted exactly if it is within
the nesting limit, where a whole expression or condition counts for a level, and within the
operator limit.  So if only statements, groups and prefix operators count for levels then an
accepted source has at most 128, and if it has at most 127 and is within the operator limit then it
is accepted. -/
theorem parse_limits {source : String} {tokens : List Token} {tree : Node} {most levels : Nat}
    (items : (scan source).items = tokens.map .token)
    (derives : BareProgram most levels tokens tree) :
    ((parse source).reports = [] ↔
      (∃ most, Program most maxNesting tokens tree) ∧
        ∃ levels, Program maxOperators levels tokens tree) ∧
    ((parse source).reports = [] → ∃ most, BareProgram most maxNesting tokens tree) ∧
    ((∃ most, BareProgram most (maxNesting - 1) tokens tree) →
      (∃ levels, BareProgram maxOperators levels tokens tree) → (parse source).reports = []) := by
  have within : ∀ {most levels}, Program most maxNesting tokens tree →
      Program maxOperators levels tokens tree → (parse source).reports = [] := by
    intro most levels nested counted
    exact (parse_complete items (nested.align counted)).1
  have accepted : (parse source).reports = [] → Program maxOperators maxNesting tokens tree := by
    intro silent
    obtain ⟨tokens', items', read⟩ := parse_sound silent
    have same : tokens' = tokens :=
      (List.map_inj_right fun _ _ => Item.token.inj).mp (items'.symm.trans items)
    subst same
    have counted := derives.program.align read
    rw [counted.unique items read]
    exact read
  refine ⟨⟨fun silent => ?_, ?_⟩, fun silent => ⟨_, (accepted silent).bare⟩, ?_⟩
  · exact ⟨⟨_, accepted silent⟩, ⟨_, accepted silent⟩⟩
  · rintro ⟨⟨_, nested⟩, ⟨_, counted⟩⟩
    exact within nested counted
  · rintro ⟨_, nested⟩ ⟨_, counted⟩
    exact within nested.program counted.program

/-! ## Signs before a number -/

/-- An output of a number with so many signs before it. -/
def signsSource (n : Nat) : String :=
  String.ofList ('o' :: 'u' :: 't' :: ' ' :: (.replicate n '-' ++ ['1', ';']))

/-- A token on the first line. -/
def tokenAt (kind : TokenKind) (text : String) (column : Nat) : Token :=
  ⟨kind, text, ⟨1, .ofNat column⟩, ⟨1, .ofNat (column + text.length)⟩⟩

/-- The tokens of the output. -/
def signsTokens (n : Nat) : List Token :=
  let signs := (List.range n).map fun i => tokenAt .minus "-" (5 + i)
  tokenAt .out "out" 1 :: (signs ++ [tokenAt .number "1" (5 + n)]) ++
    [tokenAt .semicolon ";" (6 + n)]

/-- By induction on the signs: each is a level and an operator more. -/
theorem Grammar.Phrase.signed {signs : List Token} (minus : ∀ t ∈ signs, t.kind = .minus)
    {levels k : Nat} {ts : List Token} {node : Node} (h : Phrase .unary levels k ts node)
    (integer : node.isCondition = false) :
    ∃ node', Phrase .unary (levels + signs.length) (k + signs.length) (signs ++ ts) node' ∧
      node'.isCondition = false := by
  induction signs with
  | nil => exact ⟨node, h, integer⟩
  | cons sign signs ih =>
      obtain ⟨first, others⟩ := List.forall_mem_cons.mp minus
      obtain ⟨operand, phrase, integer⟩ := ih others
      exact ⟨.neg operand, .negative first phrase integer, rfl⟩

/-- Every sign opens a level, and the statement opens another one. -/
theorem signsTokens_derive {n : Nat} (few : n ≤ maxOperators) :
    ∃ tree, BareProgram maxOperators (n + 1) (signsTokens n) tree := by
  have one : Phrase .primary 0 0 [tokenAt .number "1" (5 + n)] (.num (Int32.ofNat 1)) :=
    .number rfl (show Nat.ofDigitChars 10 "1".toList 0 = 1 by decide) (by decide)
  have minus : ∀ t ∈ (List.range n).map fun i => tokenAt .minus "-" (5 + i), t.kind = .minus := by
    intro t mem
    obtain ⟨i, -, rfl⟩ := List.mem_map.mp mem
    rfl
  obtain ⟨value, phrase, integer⟩ := (Phrase.ofPrimary one).signed minus rfl
  rw [Nat.zero_add, List.length_map, List.length_range] at phrase
  have whole := Phrase.ofAnd (.ofNot (.ofComparison (.ofTerm (.ofFactor (.ofUnary phrase)))))
  have statement : BareStatement maxOperators (n + 1) (signsTokens n) (.out value) :=
    .out rfl (.whole whole few integer) rfl
  refine ⟨.seq [.out value], .whole ?_⟩
  rw [← List.append_nil (signsTokens n)]
  exact .cons statement .nil

/-- With 126 signs the levels of the signs and the statement are 127. -/
theorem parse_limits_signs :
    (scan (signsSource 126)).items = (signsTokens 126).map .token ∧
    (∃ tree, BareProgram maxOperators (maxNesting - 1) (signsTokens 126) tree) ∧
    (parse (signsSource 126)).reports = [] := by
  have items : (scan (signsSource 126)).items = (signsTokens 126).map .token := by
    rw [scan, Cursor.ofSource, signsSource, String.toList_ofList]
    decide +kernel
  have ⟨tree, derives⟩ := signsTokens_derive (show 126 ≤ maxOperators by decide)
  exact ⟨items, ⟨tree, derives⟩, (parse_limits items derives).2.2 ⟨_, derives⟩ ⟨_, derives⟩⟩

/-- With 127 signs the levels of the signs and the statement are 128, and the source is refused. -/
theorem parse_signs_refused :
    (scan (signsSource 127)).items = (signsTokens 127).map .token ∧
    (∃ tree, BareProgram maxOperators maxNesting (signsTokens 127) tree) ∧
    (parse (signsSource 127)).errors = 1 := by
  have scanned : scan (signsSource 127) = scanFrom #[]
      ⟨'o' :: 'u' :: 't' :: ' ' :: (.replicate 127 '-' ++ ['1', ';']), .start⟩ := by
    rw [scan, Cursor.ofSource, signsSource, String.toList_ofList]
  refine ⟨?_, signsTokens_derive (show 127 ≤ maxOperators by decide), ?_⟩
  · rw [scanned]
    decide +kernel
  · rw [parse, scanned]
    decide +kernel

end WhenLoop
