import WhenLoop.Proofs.Termination

/-!
# When a panic ends

A report puts the parse into panic, and behind a statement that was reported on the parse looks
for a place to go on from.  It ends the panic first and steps over tokens then.  A fault on the
way is reported like any other, and it starts a panic of its own that no one ends.  So behind a
statement the parse is in panic exactly if a fault was passed while it recovered
(`declaration_panicking_iff`), and in a source without faults it never is.

Whether the next statement is reported on hangs on this.  Out of a panic nothing that is wrong is
held back: a parse that comes into panic has counted a report (`State.Tells`).
-/

namespace WhenLoop

open State

namespace State

variable {s s₁ s₂ : State}

/-! ## Stepping into panic -/

/-- Stepping starts a panic if and only if a fault is passed. -/
theorem skip_panicking (stop : Token → Token → Bool) (s : State) (items : List Item) :
    ∃ passed, items = passed ++ (skip stop s items).upcoming ∧
      ((skip stop s items).panicking = true ↔
        s.panicking = true ∨ ∃ fault, Item.fault fault ∈ passed) := by
  fun_induction skip stop s items with
  | case1 s => exact ⟨[], rfl, by simp⟩
  | case2 s fault items ih =>
      obtain ⟨passed, split, panic⟩ := ih
      refine ⟨.fault fault :: passed, congrArg (_ :: ·) split, panic.trans ?_⟩
      simp
  | case3 s token items stops => exact ⟨[], rfl, by simp⟩
  | case4 s token items goesOn ih =>
      obtain ⟨passed, split, panic⟩ := ih
      refine ⟨.token token :: passed, congrArg (_ :: ·) split, panic.trans ?_⟩
      simp

/-- A parse that has recovered is in panic if and only if it passed a fault on the way. -/
theorem recover_panicking (goesOn : s.aborted = false) :
    ∃ passed, s.upcoming = passed ++ s.recover.upcoming ∧
      (s.recover.panicking = true ↔ ∃ fault, Item.fault fault ∈ passed) := by
  rw [recover, if_neg (ne_true_of_eq_false goesOn)]
  obtain ⟨passed, split, panic⟩ :=
    skip_panicking (resumes s.depth) { s with panicking := false } s.upcoming
  exact ⟨passed, split, panic.trans (by simp)⟩

/-- Recovery gives nothing up. -/
theorem recover_aborted (s : State) : s.recover.aborted = s.aborted := by
  rw [recover]
  split
  · rfl
  · exact skip_aborted ..

/-! ## No panic without a report -/

/-- From one state to another no report is forgotten, and a panic that starts is reported. -/
structure Tells (s s' : State) : Prop where
  errors : s.errors ≤ s'.errors
  told : s'.panicking = true → s.panicking = true ∨ s.errors < s'.errors

namespace Tells

theorem refl (s : State) : s.Tells s := ⟨Nat.le_refl _, .inl⟩

/-- A panic that starts in the second stretch is reported there. -/
theorem trans (h : s.Tells s₁) (h' : s₁.Tells s₂) : s.Tells s₂ where
  errors := Nat.le_trans h.errors h'.errors
  told := fun panic => by
    rcases h'.told panic with before | counted
    · exact (h.told before).imp_right fun counted => Nat.lt_of_lt_of_le counted h'.errors
    · exact .inr (Nat.lt_of_le_of_lt h.errors counted)

/-- A report counts, or there was a panic before. -/
theorem report (s : State) (r : Report) : s.Tells (s.report r) := by
  rw [State.report]
  split
  · exact .refl s
  · exact ⟨Nat.le_succ _, fun _ => .inr (Nat.lt_succ_self _)⟩

/-- Every fault that starts a panic is reported. -/
theorem skip (stop : Token → Token → Bool) (s : State) (items : List Item) :
    s.Tells (skip stop s items) := by
  fun_induction State.skip stop s items with
  | case1 s => exact ⟨Nat.le_refl _, .inl⟩
  | case2 s fault items ih => exact (Tells.report s _).trans ih
  | case3 s token items stops => exact ⟨Nat.le_refl _, .inl⟩
  | case4 s token items goesOn ih => exact ⟨ih.errors, ih.told⟩

theorem advance (s : State) : s.Tells s.advance :=
  have step := Tells.skip (fun _ _ => true) { s with previous := s.current } s.upcoming.tail
  ⟨step.errors, step.told⟩

theorem abort (s : State) (problem : Problem) : s.Tells (s.abort problem) :=
  have rest := Tells.skip (fun _ _ => false) { s.reportCurrent problem with aborted := true }
    s.upcoming
  (Tells.report s _).trans ⟨rest.errors, rest.told⟩

/-- Recovery ends the panic, and one that a fault starts behind that is a new one. -/
theorem recover (s : State) : s.Tells s.recover := by
  rw [State.recover]
  split
  · exact .refl s
  · have step := Tells.skip (resumes s.depth) { s with panicking := false } s.upcoming
    exact ⟨step.errors, fun panic => .inr ((step.told panic).resolve_left (by simp))⟩

end Tells

theorem Moves.tells (h : s.Moves s₁) : s.Tells s₁ := by
  induction h with
  | refl s => exact .refl s
  | trans _ _ ih ih' => exact ih.trans ih'
  | advance s => exact .advance s
  | reportCurrent s problem => exact .report s _
  | reportPrevious s problem => exact .report s _
  | count s _ => exact ⟨Nat.le_refl _, .inl⟩
  | overflow s _ =>
      have gaveUp := Tells.abort { s with operators := s.operators + 1 } .tooManyOperators
      exact ⟨gaveUp.errors, gaveUp.told⟩
  | refuse s _ => exact .abort s _
  | nested _ _ ih => exact ⟨ih.errors, ih.told⟩

/-- By induction on the work.  A panic that there is behind a recovery started in it and was
reported. -/
theorem Works.tells {inside : Bool} (h : Works inside s s₁) : s.Tells s₁ := by
  induction h with
  | refl s => exact .refl s
  | step _ ih => exact (Tells.advance _).trans ih
  | phrase moves _ ih => exact moves.tells.trans ih
  | whole _ ih => exact ⟨ih.errors, ih.told⟩
  | reportCurrent problem _ ih => exact (Tells.report _ _).trans ih
  | refuse _ _ ih => exact (Tells.abort _ _).trans ih
  | nested _ _ _ ih ih' => exact Tells.trans ⟨ih.errors, ih.told⟩ ⟨ih'.errors, ih'.told⟩
  | recover _ _ ih => exact (Tells.recover _).trans ih

end State

/-! ## Statements with recovery -/

/-- Behind the recovery there is a panic if and only if there was one before it, so that there was
something to recover from, and a fault was passed on the way. -/
theorem recovering_panicking {p : Parser} {s : State}
    (goesOn : (recovering p s).2.aborted = false) :
    ∃ passed, (p s).2.upcoming = passed ++ (recovering p s).2.upcoming ∧
      ((recovering p s).2.panicking = true ↔
        (p s).2.panicking = true ∧ ∃ fault, Item.fault fault ∈ passed) := by
  rw [recovering] at goesOn ⊢
  dsimp only at goesOn ⊢
  split
  · rename_i panic
    rw [if_pos panic, recover_aborted] at goesOn
    obtain ⟨passed, split, faulty⟩ := recover_panicking goesOn
    exact ⟨passed, split, faulty.trans (by simp [panic])⟩
  · rename_i calm
    exact ⟨[], rfl, by simp [calm]⟩

variable {source : String} {s : State}

/-- What a routine yields when it is called while a source is read. -/
theorem Called.yields {r : Routine} (called : Called source r s) :
    (plan r s).Yields
      (r.answer (ofScan (scan source)).upcoming.length (maxNesting - s.depth) s) :=
  (Routine.settles _ r s _ called.ready.1 (Nat.add_sub_cancel' called.ready.2)).yields

/-- The first statement of a source that has one is read at the first token. -/
theorem called_first (inside : (ofScan (scan source)).atEnd = false) :
    Called source .declaration (ofScan (scan source)) := by
  have whole : Called source .program (.before (scan source)) := .first
  have passing : Called source .consume (.before (scan source)) := .next whole .now
  have passed : (plan .consume (.before (scan source))).Yields
      (.seq [], ofScan (scan source)) := ofScan_eq_skip (scan source) ▸ passing.yields
  have list : Called source (.statements false []) (ofScan (scan source)) :=
    .next whole (.later passed .now)
  refine .next list ?_
  rw [plan, if_neg (by simp [inside, listEnd])]
  exact .now

/-- Every call that reads a statement and recovers from it has an answer.  If no limit was passed,
it leaves a panic behind exactly if there was something to recover from and a fault was passed on
the way.  In particular it leaves none if there is no fault ahead.  A statement that is read out
of panic and comes into it is reported on. -/
theorem declaration_panicking_iff (called : Called source .declaration s) :
    ∃ node behind last, (plan .statement s).Yields (node, behind) ∧
      (plan .declaration s).Yields (node, last) ∧
      (last.aborted = false →
        (∃ passed, behind.upcoming = passed ++ last.upcoming ∧
          (last.panicking = true ↔
            behind.panicking = true ∧ ∃ fault, Item.fault fault ∈ passed)) ∧
        ((∀ fault, Item.fault fault ∉ s.upcoming) → last.panicking = false)) ∧
      (s.panicking = false → behind.panicking = true → s.errors < behind.errors) := by
  have inner : Called source .statement s := .next called .now
  have works := statement_works (ofScan (scan source)).upcoming.length (maxNesting - s.depth) s
    (Nat.add_sub_cancel' called.ready.2)
  refine ⟨_, _, _, inner.yields, called.yields, fun goesOn => ?_, fun calm panic => ?_⟩
  · obtain ⟨passed, split, panic⟩ := recovering_panicking goesOn
    refine ⟨⟨passed, split, panic⟩, fun clean => ?_⟩
    refine eq_false_of_ne_true fun panics => ?_
    obtain ⟨-, fault, mem⟩ := panic.mp panics
    exact clean fault (works.onward.upcoming.subset (split ▸ List.mem_append_left _ mem))
  · exact (works.tells.told panic).resolve_left (by simp [calm])

/-- Nothing follows the sign of the assignment.  The parse goes on at `out` without a step, so the
fault further on is not passed and the panic is over. -/
theorem declaration_panicking_iff_operand :
    let s := ofScan (scan "x = ; out $ 1;")
    Called "x = ; out $ 1;" .declaration s ∧
      ∃ node behind last, (plan .statement s).Yields (node, behind) ∧
        (plan .declaration s).Yields (node, last) ∧ behind.panicking = true ∧
        s.errors < behind.errors ∧ last.aborted = false ∧ last.panicking = false := by
  have called : Called "x = ; out $ 1;" .declaration _ := called_first (by decide +kernel)
  have inner : Called "x = ; out $ 1;" .statement _ := .next called .now
  refine ⟨called, ?_⟩
  obtain ⟨node, behind, last, read, recovered, calmed, told⟩ := declaration_panicking_iff called
  have same : behind = _ := congrArg Prod.snd (read.unique inner.yields)
  have same' : last = _ := congrArg Prod.snd (recovered.unique called.yields)
  have panic : behind.panicking = true := by
    rw [same]
    decide +kernel
  have goesOn : last.aborted = false := by
    rw [same']
    decide +kernel
  have stays : behind.upcoming.length = last.upcoming.length := by
    rw [same, same']
    decide +kernel
  obtain ⟨⟨passed, split, iff⟩, -⟩ := calmed goesOn
  have none : passed = [] := by
    rw [split, List.length_append, Nat.add_eq_right] at stays
    exact List.length_eq_zero_iff.mp stays
  refine ⟨node, behind, last, read, recovered, panic, told (by decide +kernel) panic, goesOn, ?_⟩
  rw [none] at iff
  simpa using iff

/-- A character that is no token lies where the parse recovers from the first statement.  Behind
it the parse is in panic, and the second statement is not reported on. -/
theorem declaration_leaves_panic :
    ∃ s node last, Called ") y $ ; x = ;" .declaration s ∧
      (plan .declaration s).Yields (node, last) ∧ last.aborted = false ∧ last.panicking = true ∧
      (parse ") y $ ; x = ;").errors = last.errors ∧ (parse "x = ;").errors = 1 := by
  have called : Called ") y $ ; x = ;" .declaration _ := called_first (by decide +kernel)
  exact ⟨_, _, _, called, called.yields, by decide +kernel, by decide +kernel, by decide +kernel,
    by decide +kernel⟩

end WhenLoop
