import WhenLoop.Proofs.Panic

/-!
# A parse step by step

`plan` says what each routine does, and `Plan.Yields` what comes of it in the end.  To speak of
what happens before and after some moment of a parse, the parse is taken apart into steps here.
A `Moment` is the plan that is being carried out, with all that waits for its answer.  A step
starts the plan of the routine that is called, or hands an answer to what waits for it.

A plan that yields an answer comes to it in a number of steps, and does not touch what waits for
it until then (`Plan.Yields.runs`).  So the steps of a parse lead to its tree (`momentAt_end`).
In the other direction, whatever is called at a moment of the parse is one of its calls
(`called_of_momentAt`), and what was shown of these holds there.
-/

namespace WhenLoop

open State

/-- The state in which a plan goes on: that of the call it makes, or that of its answer. -/
def Plan.state : Plan → State
  | done answer => answer.2
  | call _ s _ => s

/-- A moment in a parse. -/
structure Moment where
  /-- What is being carried out. -/
  plan : Plan
  /-- What waits for an answer, the one for the next answer first. -/
  waiting : List (Node × State → Plan)

namespace Moment

/-- The state of the parse at the moment. -/
def state (p : Moment) : State := p.plan.state

/-- The moment that comes next.  A parse that has its answer stays there. -/
def next : Moment → Moment
  | ⟨.call routine s next, waiting⟩ => ⟨WhenLoop.plan routine s, next :: waiting⟩
  | ⟨.done answer, next :: waiting⟩ => ⟨next answer, waiting⟩
  | ⟨.done answer, []⟩ => ⟨.done answer, []⟩

/-- The moment a number of steps further on. -/
def after (p : Moment) : Nat → Moment
  | 0 => p
  | n + 1 => (p.after n).next

theorem after_add (p : Moment) (m n : Nat) : p.after (m + n) = (p.after m).after n := by
  induction n with
  | zero => rfl
  | succ n ih => exact congrArg next ih

theorem after_done (answer : Node × State) (n : Nat) :
    (Moment.mk (.done answer) []).after n = ⟨.done answer, []⟩ := by
  induction n with
  | zero => rfl
  | succ n ih =>
      rw [after, ih]
      rfl

/-! ## From a plan to its answer -/

/-- So many steps lead from one moment to the other, and what is given to wait does so all the
time. -/
structure Runs (waiting : List (Node × State → Plan)) (n : Nat) (p q : Moment) : Prop where
  reached : p.after n = q
  inside : ∀ k, k ≤ n → waiting <:+ (p.after k).waiting

namespace Runs

variable {waiting : List (Node × State → Plan)} {m n : Nat} {p q r : Moment}

theorem refl (here : waiting <:+ p.waiting) : Runs waiting 0 p p where
  reached := rfl
  inside := fun k le => by
    rw [Nat.le_zero.mp le]
    exact here

/-- One step, before and after which the same plans wait. -/
theorem step (here : waiting <:+ p.waiting) (there : waiting <:+ p.next.waiting) :
    Runs waiting 1 p p.next where
  reached := rfl
  inside := fun k le => by
    rcases Nat.le_one_iff_eq_zero_or_eq_one.mp le with rfl | rfl
    · exact here
    · exact there

theorem trans (h : Runs waiting m p q) (h' : Runs waiting n q r) : Runs waiting (m + n) p r where
  reached := by rw [after_add, h.reached, h'.reached]
  inside := fun k le => by
    rcases Nat.le_total k m with early | late
    · exact h.inside k early
    · obtain ⟨j, rfl⟩ := Nat.exists_eq_add_of_le late
      rw [after_add, h.reached]
      exact h'.inside j (by omega)

theorem outer {next : Node × State → Plan} (h : Runs (next :: waiting) n p q) :
    Runs waiting n p q where
  reached := h.reached
  inside := fun k le => (List.suffix_cons next waiting).trans (h.inside k le)

end Runs

end Moment

open Moment

/-- A plan comes to what it yields, and until then nothing else gets an answer. -/
theorem Plan.Yields.runs {p : Plan} {answer : Node × State} (h : p.Yields answer) :
    ∀ waiting, ∃ n, Runs waiting n ⟨p, waiting⟩ ⟨.done answer, waiting⟩ := by
  induction h with
  | done answer => exact fun waiting => ⟨0, .refl List.suffix_rfl⟩
  | @call routine s next answer answer' _ _ ih ih' =>
      intro waiting
      obtain ⟨n, first⟩ := ih (next :: waiting)
      obtain ⟨n', rest⟩ := ih' waiting
      have called : Runs waiting 1 ⟨.call routine s next, waiting⟩ ⟨_, next :: waiting⟩ :=
        .step List.suffix_rfl (List.suffix_cons ..)
      have answered : Runs waiting 1 ⟨.done answer, next :: waiting⟩ ⟨next answer, waiting⟩ :=
        .step (List.suffix_cons ..) List.suffix_rfl
      exact ⟨_, ((called.trans first.outer).trans answered).trans rest⟩

/-! ## The moments of a parse -/

/-- The moment of the parse of a source after a number of steps. -/
def momentAt (source : String) (n : Nat) : Moment :=
  (Moment.mk (plan .program (.before (scan source))) []).after n

theorem momentAt_add (source : String) (m n : Nat) :
    momentAt source (m + n) = (momentAt source m).after n :=
  after_add _ m n

/-- Reading yields the tree that is parsed, with the reports that are made. -/
theorem program_yields (source : String) :
    ∃ last : State, (plan .program (.before (scan source))).Yields ((parse source).tree, last) ∧
      last.reports.reverse = (parse source).reports ∧ last.errors = (parse source).errors := by
  have called : Called source .program (.before (scan source)) := .first
  have begun : skip (fun _ _ => true) (before (scan source)) (before (scan source)).upcoming =
      ofScan (scan source) := (ofScan_eq_skip (scan source)).symm
  have read := called.yields
  simp only [Routine.answer, begun] at read
  exact ⟨_, read, rfl, rfl⟩

/-- From some step on a parse has its tree, and stays there. -/
theorem momentAt_end (source : String) :
    ∃ n last, (∀ k, n ≤ k → momentAt source k = ⟨.done ((parse source).tree, last), []⟩) ∧
      last.reports.reverse = (parse source).reports ∧ last.errors = (parse source).errors := by
  obtain ⟨last, yields, reports, errors⟩ := program_yields source
  obtain ⟨n, runs⟩ := yields.runs []
  refine ⟨n, last, fun k le => ?_, reports, errors⟩
  obtain ⟨j, rfl⟩ := Nat.exists_eq_add_of_le le
  rw [momentAt_add, momentAt, runs.reached, after_done]

/-! ## The calls at the moments of a parse -/

/-- The plan comes to go on with the other one, once its calls up to there have their answers. -/
inductive Plan.Leads : Plan → Plan → Prop where
  | refl (p : Plan) : Leads p p
  | answered {routine : Routine} {s : State} {next : Node × State → Plan} {answer : Node × State}
      {p : Plan} : (plan routine s).Yields answer → Leads (next answer) p →
      Leads (.call routine s next) p

namespace Plan.Leads

variable {p q : Plan} {routine : Routine} {s : State} {next : Node × State → Plan}
  {answer : Node × State}

/-- A call that a plan comes to is one it makes. -/
theorem makes (h : p.Leads (.call routine s next)) : p.Makes routine s := by
  generalize last : call routine s next = q at h
  induction h with
  | refl p =>
      subst last
      exact .now
  | answered yields _ ih => exact .later yields (ih last)

/-- An answer that a plan comes to is the one it has. -/
theorem yields (h : p.Leads (.done answer)) : p.Yields answer := by
  generalize last : done answer = q at h
  induction h with
  | refl p =>
      subst last
      exact .done answer
  | answered yields _ ih => exact .call yields (ih last)

/-- Behind a call the plan goes on with the answer. -/
theorem later (h : p.Leads (.call routine s next)) (yields : (plan routine s).Yields answer) :
    p.Leads (next answer) := by
  generalize last : call routine s next = q at h
  induction h with
  | refl p =>
      subst last
      exact .answered yields (.refl _)
  | answered first _ ih => exact .answered first (ih last)

end Plan.Leads

/-- What waits for the answer of a routine that was called: the rest of the plan of another call,
and behind it what waits for the answer of that one. -/
inductive Awaited (source : String) : Routine → State → List (Node × State → Plan) → Prop where
  | last : Awaited source .program (.before (scan source)) []
  | inner {routine other : Routine} {s t : State} {next : Node × State → Plan}
      {waiting : List (Node × State → Plan)} : Called source routine s →
      (plan routine s).Leads (.call other t next) → Awaited source routine s waiting →
      Awaited source other t (next :: waiting)

/-- Every moment of a parse belongs to a call that is made, and its answer is awaited. -/
theorem momentAt_awaited (source : String) (n : Nat) :
    ∃ routine s, Called source routine s ∧ (plan routine s).Leads (momentAt source n).plan ∧
      Awaited source routine s (momentAt source n).waiting := by
  induction n with
  | zero => exact ⟨.program, _, .first, .refl _, .last⟩
  | succ n ih =>
      obtain ⟨routine, s, called, leads, awaited⟩ := ih
      change ∃ routine s, Called source routine s ∧
        (plan routine s).Leads (momentAt source n).next.plan ∧
        Awaited source routine s (momentAt source n).next.waiting
      generalize momentAt source n = p at leads awaited
      match p, leads, awaited with
      | ⟨.call other t next, waiting⟩, leads, awaited =>
          exact ⟨other, t, .next called leads.makes, .refl _, .inner called leads awaited⟩
      | ⟨.done answer, []⟩, leads, awaited => exact ⟨routine, s, called, leads, awaited⟩
      | ⟨.done answer, next :: waiting⟩, leads, .inner outer leads' awaited =>
          exact ⟨_, _, outer, leads'.later leads.yields, awaited⟩

/-- What is called at a moment of a parse is one of the calls of the parse. -/
theorem called_of_momentAt {source : String} {n : Nat} {routine : Routine} {s : State}
    {next : Node × State → Plan} (calls : (momentAt source n).plan = .call routine s next) :
    Called source routine s := by
  obtain ⟨_, _, called, leads, -⟩ := momentAt_awaited source n
  rw [calls] at leads
  exact .next called leads.makes

end WhenLoop
