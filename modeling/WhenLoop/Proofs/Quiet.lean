import WhenLoop.Proofs.Growth

/-!
# Quiet states

A state is quiet if nothing was wrong so far: there is no report, no panic, and no limit was
passed.  A quiet state also knows what the scan promises.  The end token is the only one of
its kind, and no fault is current.

There are two views of a step from a quiet state.

* Backwards, `State.Reads s ts s'` says that the tokens `ts` lie between two states and that
  the second is quiet.  A step that ends without a report is such a reading
  (`Quiet.advance_reads`, `Quiet.expect_reads`), and a step that finds something wrong ends
  with one (`Quiet.report_ne_nil` and those after it).
* Forwards, `State.At s ts` says that a quiet state has nothing but the tokens `ts` before
  it.  Then what a step does is known (`At.advance`, `At.expect`).
-/

namespace WhenLoop

/-! ## The end token of a scan -/

/-- The end token stands at the end and nowhere else. -/
structure Scan.Ended (scan : Scan) : Prop where
  finish : scan.finish.kind = .endOfInput
  items : ∀ t, Item.token t ∈ scan.items → t.kind ≠ .endOfInput

/-- By induction on what is left to scan.  The scan stops at the first end token, and none was found
before. -/
theorem scanFrom_ended {found : Array Item} {cursor : Cursor}
    (h : ∀ t, Item.token t ∈ found → t.kind ≠ .endOfInput) : (scanFrom found cursor).Ended := by
  fun_induction scanFrom found cursor with
  | case1 found cursor fault after _ ih =>
      apply ih
      intro t mem
      exact h t (by simpa using mem)
  | case2 found cursor token after _ atEnd =>
      exact ⟨atEnd, fun t mem => h t (by simpa using mem)⟩
  | case3 found cursor token after _ inside ih =>
      apply ih
      intro t mem
      rcases Array.mem_push.mp mem with old | new
      · exact h t old
      · cases new
        exact inside

/-- Every scan closes with its only end token. -/
theorem scan_ended (source : String) : (scan source).Ended :=
  scanFrom_ended (by simp)

namespace State

/-- A state in which nothing was wrong so far. -/
structure Quiet (s : State) : Prop where
  reports : s.reports = []
  panicking : s.panicking = false
  operators : s.operators ≤ maxOperators
  finish : s.finish.kind = .endOfInput
  head : ∀ fault items, s.upcoming ≠ .fault fault :: items
  ends : ∀ t, Item.token t ∈ s.upcoming → t.kind ≠ .endOfInput

/-- The tokens `ts` lie between a state and a quiet one. -/
structure Reads (s : State) (ts : List Token) (s' : State) : Prop where
  upcoming : s.upcoming = ts.map .token ++ s'.upcoming
  quiet : s'.Quiet

/-- The state is quiet and has the tokens `ts` before it, and no fault. -/
structure At (s : State) (ts : List Token) : Prop where
  quiet : s.Quiet
  upcoming : s.upcoming = ts.map .token

/-- What two stretches read is the one and then the other. -/
theorem Reads.trans {s₁ s₂ s₃ : State} {ts us : List Token} (h : s₁.Reads ts s₂)
    (h' : s₂.Reads us s₃) : s₁.Reads (ts ++ us) s₃ where
  upcoming := by rw [h.upcoming, h'.upcoming, List.map_append, List.append_assoc]
  quiet := h'.quiet

theorem Quiet.reads_nil {s : State} (h : s.Quiet) : s.Reads [] s := ⟨rfl, h⟩

/-! ## The current token -/

variable {s : State}

/-- A token that is not the end token is the first item. -/
theorem Quiet.upcoming_eq (h : s.Quiet) (inside : s.current.kind ≠ .endOfInput) :
    ∃ items, s.upcoming = .token s.current :: items := by
  rw [current] at inside ⊢
  cases items : s.upcoming with
  | nil => simp [items, h.finish] at inside
  | cons item rest =>
      cases item with
      | fault fault => exact absurd items (h.head fault rest)
      | token t => exact ⟨rest, rfl⟩

/-- At the end token nothing is left. -/
theorem Quiet.upcoming_of_atEnd (h : s.Quiet) (atEnd : s.atEnd = true) : s.upcoming = [] := by
  cases items : s.upcoming with
  | nil => rfl
  | cons item rest =>
      cases item with
      | fault fault => exact absurd items (h.head fault rest)
      | token t =>
          have isEnd : t.kind = .endOfInput := by simpa [State.atEnd, current, items] using atEnd
          exact absurd isEnd (h.ends t (by simp [items]))

theorem At.current {t : Token} {ts : List Token} (h : s.At (t :: ts)) : s.current = t := by
  simp [State.current, h.upcoming]

theorem At.current_nil (h : s.At []) : s.current.kind = .endOfInput := by
  simp [State.current, h.upcoming, h.quiet.finish]

/-- Of a list of tokens, each is one of the upcoming and so not the end token. -/
theorem At.kind_ne {ts : List Token} (h : s.At ts) {t : Token} (mem : t ∈ ts) :
    t.kind ≠ .endOfInput :=
  h.quiet.ends t (by rw [h.upcoming]; exact List.mem_map_of_mem mem)

/-! ## What is wrong is reported -/

/-- In panic something was reported. -/
def Honest (s : State) : Prop := s.panicking = true → s.reports ≠ []

theorem Quiet.honest (h : s.Quiet) : s.Honest := by
  intro panic
  rw [h.panicking] at panic
  cases panic

/-- A report is either made now or held back by a panic that had its own. -/
theorem Honest.report_ne_nil (h : s.Honest) (r : Report) : (s.report r).reports ≠ [] := by
  rw [report]
  split
  · exact h ‹_›
  · intro silent
    cases silent

/-- Skipping reports each fault it meets, so the panic that a fault starts is not silent. -/
theorem Honest.skip {stop : Token → Token → Bool} {items : List Item} (h : s.Honest) :
    (skip stop s items).Honest := by
  fun_induction State.skip stop s items with
  | case1 s => exact h
  | case2 s fault items ih => exact ih fun _ => h.report_ne_nil _
  | case3 s token items stops => exact h
  | case4 s token items goesOn ih => exact ih h

/-- In a quiet state a report is made and not held back. -/
theorem Quiet.report_ne_nil (h : s.Quiet) (r : Report) : (s.report r).reports ≠ [] :=
  h.honest.report_ne_nil r

/-- Behind one step from a quiet state a report leaves a trace, whether or not the step met a
fault. -/
theorem Quiet.advance_report_ne_nil (h : s.Quiet) (r : Report) :
    (s.advance.report r).reports ≠ [] :=
  have honest : ({ s with previous := s.current } : State).Honest := h.honest
  honest.skip.report_ne_nil r

/-- A limit that is passed in a quiet state is reported. -/
theorem Quiet.abort_ne_nil (h : s.Quiet) (problem : Problem) :
    (s.abort problem).reports ≠ [] := by
  intro silent
  have grows := skip_grows (fun _ _ => false) { s.reportCurrent problem with aborted := true }
    s.upcoming
  rw [show skip _ _ _ = s.abort problem from rfl, silent, List.suffix_nil] at grows
  exact h.report_ne_nil _ grows

/-! ## Steps that end without a report -/

/-- If no report is behind a step then none is before it. -/
theorem reports_eq_nil {s s' : State} (grows : s.reports <:+ s'.reports)
    (silent : s'.reports = []) : s.reports = [] := by
  rw [silent] at grows
  exact List.suffix_nil.mp grows

@[simp]
theorem advance_operators (s : State) : s.advance.operators = s.operators :=
  skip_operators ..

@[simp]
theorem expect_operators (s : State) (kind : TokenKind) (problem : Problem) :
    (s.expect kind problem).operators = s.operators := by
  rw [expect]
  split
  · exact s.advance_operators
  · exact report_operators ..

/-- A step that reports nothing reads exactly the current token.  Had the next item been a fault,
the step would have reported it. -/
theorem Quiet.advance_reads (h : s.Quiet) (inside : s.current.kind ≠ .endOfInput)
    (silent : s.advance.reports = []) : s.Reads [s.current] s.advance := by
  obtain ⟨items, same⟩ := h.upcoming_eq inside
  have ends : ∀ t, Item.token t ∈ items → t.kind ≠ .endOfInput :=
    fun t mem => h.ends t (by rw [same]; exact List.mem_cons_of_mem _ mem)
  have step : s.advance = skip (fun _ _ => true) { s with previous := s.current } items := by
    rw [advance, same, List.tail_cons]
  rw [step] at silent ⊢
  cases items with
  | nil =>
      exact ⟨same, h.reports, h.panicking, h.operators, h.finish, by simp [skip], by simp [skip]⟩
  | cons item rest =>
      cases item with
      | token t =>
          exact ⟨same, h.reports, h.panicking, h.operators, h.finish, by simp [skip], ends⟩
      | fault fault =>
          rw [skip] at silent
          have reported := reports_eq_nil (skip_grows ..) silent
          exact absurd reported (Honest.report_ne_nil (by exact h.honest) _)

/-- An expectation that reports nothing was met, and read the token it names. -/
theorem Quiet.expect_reads (h : s.Quiet) {kind : TokenKind} {problem : Problem}
    (inside : kind ≠ .endOfInput) (silent : (s.expect kind problem).reports = []) :
    s.current.kind = kind ∧ s.Reads [s.current] (s.expect kind problem) := by
  rw [expect] at silent ⊢
  split at silent
  · rename_i same
    rw [if_pos same]
    exact ⟨same, h.advance_reads (by rwa [same]) silent⟩
  · exact absurd silent (h.report_ne_nil _)

/-- An integer's place without a report behind it holds no condition. -/
theorem Quiet.reportCondition_eq (h : s.Quiet) {problem : Problem} {node : Node}
    (silent : (s.reportCondition problem node).reports = []) :
    node.isCondition = false ∧ s.reportCondition problem node = s := by
  rw [reportCondition] at silent ⊢
  split at silent
  · exact absurd silent (h.report_ne_nil _)
  · rename_i other
    exact ⟨by simpa using other, if_neg other⟩

/-- No report is made on what is not a condition. -/
theorem reportCondition_of_not {node : Node} (other : node.isCondition = false)
    (s : State) (problem : Problem) : s.reportCondition problem node = s := by
  simp [reportCondition, other]

/-! ## Steps over tokens that are known -/

theorem head_of_tokens {ts : List Token} (h : s.upcoming = ts.map .token) :
    ∀ fault items, s.upcoming ≠ .fault fault :: items := by
  intro fault items same
  rw [h] at same
  cases ts with
  | nil => cases same
  | cons t ts => cases same

/-- If none of the upcoming tokens is the end token, no upcoming item is. -/
theorem ends_of_tokens {ts : List Token} (h : s.upcoming = ts.map .token)
    (ends : ∀ t ∈ ts, t.kind ≠ .endOfInput) :
    ∀ t, Item.token t ∈ s.upcoming → t.kind ≠ .endOfInput := by
  intro t mem
  rw [h] at mem
  obtain ⟨u, mem, same⟩ := List.mem_map.mp mem
  cases same
  exact ends _ mem

/-- To step over a token when no fault is behind it. -/
theorem advance_of_tokens {t : Token} {ts : List Token} (h : s.upcoming = (t :: ts).map .token) :
    s.current = t ∧ s.advance = { s with previous := t, upcoming := ts.map .token } := by
  have current : s.current = t := by rw [State.current, h]; rfl
  refine ⟨current, ?_⟩
  rw [State.advance, current, h, List.map_cons, List.tail_cons]
  cases ts with
  | nil => rfl
  | cons u ts => rfl

/-- Only the tokens, the reports and the limits decide whether a state is quiet. -/
theorem At.of_eq {ts : List Token} (h : s.At ts) (s' : State)
    (same : s'.finish = s.finish ∧ s'.reports = s.reports ∧ s'.panicking = s.panicking ∧
      s'.operators ≤ maxOperators)
    {us : List Token} (upcoming : s'.upcoming = us.map .token)
    (ends : ∀ t ∈ us, t.kind ≠ .endOfInput) : s'.At us where
  upcoming := upcoming
  quiet := {
    reports := by rw [same.2.1, h.quiet.reports]
    panicking := by rw [same.2.2.1, h.quiet.panicking]
    operators := same.2.2.2
    finish := by rw [same.1, h.quiet.finish]
    head := head_of_tokens upcoming
    ends := ends_of_tokens upcoming ends }

theorem At.advance {t : Token} {ts : List Token} (h : s.At (t :: ts)) : s.advance.At ts := by
  rw [(advance_of_tokens h.upcoming).2]
  have ends : ∀ u ∈ ts, u.kind ≠ .endOfInput := fun u mem => h.kind_ne (List.mem_cons_of_mem _ mem)
  refine h.of_eq _ ?_ rfl ends
  exact ⟨rfl, rfl, rfl, h.quiet.operators⟩

theorem At.expect {t : Token} {ts : List Token} (h : s.At (t :: ts)) {kind : TokenKind}
    (same : t.kind = kind) (problem : Problem) : (s.expect kind problem).At ts := by
  rw [State.expect, if_pos (by rw [h.current, same])]
  exact h.advance

end State

/-! ## The state before the first token -/

/-- A parse that starts without a report starts at the first item of the scan, in a quiet state. -/
theorem State.ofScan_quiet {scan : Scan} (ended : scan.Ended)
    (silent : (ofScan scan).reports = []) :
    (ofScan scan).Quiet ∧ (ofScan scan).upcoming = scan.items := by
  rw [ofScan] at silent ⊢
  cases same : scan.items with
  | nil => exact ⟨⟨rfl, rfl, Nat.zero_le _, ended.finish, by simp [skip], by simp [skip]⟩, rfl⟩
  | cons item rest =>
      cases item with
      | token t =>
          refine ⟨⟨rfl, rfl, Nat.zero_le _, ended.finish, by simp [skip], ?_⟩, rfl⟩
          intro u mem
          exact ended.items u (by rw [same]; exact mem)
      | fault fault =>
          rw [same, skip] at silent
          have reported := reports_eq_nil (skip_grows ..) silent
          exact absurd reported (Honest.report_ne_nil (by intro panic; cases panic) _)

/-- A scan without faults is parsed from its first token on. -/
theorem State.ofScan_at {scan : Scan} (ended : scan.Ended) {tokens : List Token}
    (items : scan.items = tokens.map .token) : (ofScan scan).At tokens := by
  have silent : (ofScan scan).reports = [] := by
    rw [ofScan]
    rw [items]
    cases tokens with
    | nil => rfl
    | cons t ts => rfl
  obtain ⟨quiet, upcoming⟩ := ofScan_quiet ended silent
  exact ⟨quiet, upcoming.trans items⟩

end WhenLoop
