import WhenLoop.Proofs.Execution

/-!
# Runs side by side

Two machines may differ where no statement looks.  A `Simulation` is a relation between
machines that all actions keep: to log, to fail, to evaluate, to assign and to print.  Two
related machines then run every tree in lockstep.  Under the same bound both runs have a
result or neither has, and the results are related (`Simulation.contained`).

To print is related only together with its boundary.  So one of the two machines may refuse
an output that the other takes, as long as the relation holds once the refusal is reported.

What evaluation may see of a store is its values.  It cannot tell a name that is not bound
from a name that is bound to zero, and although it binds names it changes no value
(`Evaluation.Faithful`).
-/

namespace WhenLoop

variable {σ : Type}

/-! ## Evaluation and values -/

/-- Stores that give every name the same value. -/
def Store.Alike (s t : Store) : Prop := ∀ name, s.value name = t.value name

namespace Store.Alike

variable {s t u : Store}

theorem refl (s : Store) : s.Alike s := fun _ => rfl

theorem symm (h : s.Alike t) : t.Alike s := fun name => (h name).symm

theorem trans (h : s.Alike t) (h' : t.Alike u) : s.Alike u := fun name => (h name).trans (h' name)

theorem write (h : s.Alike t) (name : String) (value : Int32) :
    (s.write name value).Alike (t.write name value) := by
  intro other
  rw [value_write, value_write, h other]

end Store.Alike

namespace Evaluation

variable {α β : Type}

/-- An evaluation that depends on the values of a store only, and changes none of them. -/
structure Faithful (e : Evaluation α) : Prop where
  result : ∀ {s t : Store}, s.Alike t → (e s).1 = (e t).1
  keeps : ∀ s : Store, (e s).2.Alike s

/-- Evaluation takes stores with the same values to stores with the same values. -/
theorem Faithful.alike {e : Evaluation α} (h : e.Faithful) {s t : Store} (same : s.Alike t) :
    (e s).2.Alike (e t).2 :=
  (h.keeps s).trans (same.trans (h.keeps t).symm)

theorem faithful_const (result : Except Failure α) :
    Faithful fun s => (result, s) :=
  ⟨fun _ => rfl, Store.Alike.refl⟩

/-- What comes behind an evaluation does not see the store. -/
theorem Faithful.andThen {first : Evaluation α} (h : first.Faithful)
    (next : α → Except Failure β) : (first.andThen next).Faithful := by
  constructor
  · intro s t same
    rw [andThen_eq, andThen_eq, h.result same]
  · intro s
    rw [andThen_eq]
    exact h.keeps s

/-- The right operand finds a store like the one the left operand found. -/
theorem Faithful.both {left right : Evaluation α} (hl : left.Faithful) (hr : right.Faithful)
    (join : α → α → Except Failure β) : (left.both right join).Faithful := by
  constructor
  · intro s t same
    cases value : (left s).1 with
    | error failure =>
        have value' := hl.result same ▸ value
        rw [both_of_error value, both_of_error value']
    | ok a =>
        have value' := hl.result same ▸ value
        rw [both_of_ok value, both_of_ok value']
        exact (hr.andThen (join a)).result (hl.alike same)
  · intro s
    cases value : (left s).1 with
    | error failure =>
        rw [both_of_error value]
        exact hl.keeps s
    | ok a =>
        rw [both_of_ok value]
        exact ((hr.andThen (join a)).keeps (left s).2).trans (hl.keeps s)

end Evaluation

/-- By induction on the tree.  Reading a name that is not bound binds it to zero, which is the value
it had. -/
theorem Node.evaluate_faithful (node : Node) : node.evaluate.Faithful := by
  induction node using Node.evaluate.induct with
  | case1 value => exact Evaluation.faithful_const _
  | case2 name =>
      constructor
      · intro s t same
        have read : (s.read name).1 = (t.read name).1 := by
          rw [Store.read_fst, Store.read_fst, same name]
        exact congrArg Except.ok read
      · intro s other
        exact Store.value_read_snd s name other
  | case3 op left right ihl ihr => exact ihl.both ihr op.apply
  | case4 operand ih => exact ih.andThen _
  | case5 node _ _ _ _ =>
      rw [evaluate]
      · exact Evaluation.faithful_const _
      all_goals assumption

/-- By induction on the condition, down to the expressions in it. -/
theorem Node.test_faithful (node : Node) : node.test.Faithful := by
  induction node using Node.test.induct with
  | case1 op left right => exact left.evaluate_faithful.both right.evaluate_faithful _
  | case2 left right ihl ihr => exact ihl.both ihr _
  | case3 left right ihl ihr => exact ihl.both ihr _
  | case4 operand ih => exact ih.andThen _
  | case5 operand => exact operand.evaluate_faithful.andThen _
  | case6 node _ _ _ _ _ =>
      rw [test]
      · exact Evaluation.faithful_const _
      all_goals assumption

/-! ## Machines in lockstep -/

namespace Machine

/-- A relation between machines that every action keeps. -/
structure Simulation [Outlet σ] (R : Machine σ → Machine σ → Prop) : Prop where
  log : ∀ {m n : Machine σ}, R m n → ∀ event, R (m.log event) (n.log event)
  fail : ∀ {m n : Machine σ}, R m n → ∀ failure, R (m.fail failure) (n.fail failure)
  evaluate : ∀ {m n : Machine σ} {α : Type} {e : Evaluation α}, R m n → e.Faithful →
    (e m.store).1 = (e n.store).1 ∧
      R { m with store := (e m.store).2 } { n with store := (e n.store).2 }
  assign : ∀ {m n : Machine σ}, R m n → ∀ name value, R (m.assign name value) (n.assign name value)
  print : ∀ {m n : Machine σ}, R m n → ∀ value,
    R (settle .out (m.print value)) (settle .out (n.print value))

/-- Related machines run in lockstep, and are related again behind the boundary. -/
def Respects (R : Machine σ → Machine σ → Prop) (kind : NodeKind) (act : Execution σ) : Prop :=
  ∀ ⦃m n : Machine σ⦄, R m n →
    Option.Rel R ((act m).map (settle kind)) ((act n).map (settle kind))

/-- A success is not settled any further. -/
theorem settle_success (kind : NodeKind) (result : Option (Machine σ)) :
    (result.map fun m => (.ok (), m)).map (settle kind) = result := by
  cases result with
  | none => rfl
  | some m => rfl

variable {R : Machine σ → Machine σ → Prop} {kind : NodeKind}

/-- What comes first and what follows in lockstep are in lockstep together. -/
theorem rel_bind {first first' : Option (Machine σ)} {next next' : Machine σ → Option (Machine σ)}
    (h : Option.Rel R first first')
    (hn : ∀ {m n : Machine σ}, R m n → Option.Rel R (next m) (next' n)) :
    Option.Rel R (first.bind next) (first'.bind next') := by
  cases h with
  | some rel => exact hn rel
  | none => exact .none

theorem rel_map {α β γ δ : Type} {r : α → β → Prop} {r' : γ → δ → Prop} {f : α → γ} {g : β → δ}
    {first : Option α} {second : Option β} (h : Option.Rel r first second)
    (maps : ∀ {a b}, r a b → r' (f a) (g b)) : Option.Rel r' (first.map f) (second.map g) := by
  cases h with
  | some rel => exact .some (maps rel)
  | none => exact .none

theorem rel_some_left {α β : Type} {r : α → β → Prop} {a : α} {result : Option β}
    (h : Option.Rel r (some a) result) : ∃ b, result = some b ∧ r a b := by
  cases h with
  | some rel => exact ⟨_, rfl, rel⟩

theorem rel_some_right {α β : Type} {r : α → β → Prop} {result : Option α} {b : β}
    (h : Option.Rel r result (some b)) : ∃ a, result = some a ∧ r a b := by
  cases h with
  | some rel => exact ⟨_, rfl, rel⟩

/-- Two runs that are in lockstep under every bound from some bound on.  Each keeps its result
when the bound grows, so both end or neither does, and the ends are related whatever the bounds
are that they were found with. -/
theorem ends_of_lockstep {α : Type} {r : α → α → Prop} {first second : Nat → Option α} {least : Nat}
    (keeps : ∀ {k more a}, k ≤ more → first k = some a → first more = some a)
    (keeps' : ∀ {k more b}, k ≤ more → second k = some b → second more = some b)
    (lockstep : ∀ k, least ≤ k → Option.Rel r (first k) (second k)) :
    ((∃ a k, first k = some a) ↔ ∃ b k, second k = some b) ∧
    ∀ a b, (∃ k, first k = some a) → (∃ k, second k = some b) → r a b := by
  refine ⟨⟨?_, ?_⟩, ?_⟩
  · rintro ⟨a, k, ends⟩
    have rel := lockstep (max k least) (Nat.le_max_right k least)
    rw [keeps (Nat.le_max_left k least) ends] at rel
    obtain ⟨b, ends', _⟩ := rel_some_left rel
    exact ⟨b, _, ends'⟩
  · rintro ⟨b, k, ends⟩
    have rel := lockstep (max k least) (Nat.le_max_right k least)
    rw [keeps' (Nat.le_max_left k least) ends] at rel
    obtain ⟨a, ends', _⟩ := rel_some_right rel
    exact ⟨a, _, ends'⟩
  · rintro a b ⟨k, ends⟩ ⟨k', ends'⟩
    have rel := lockstep (max (max k k') least) (Nat.le_max_right _ least)
    rw [keeps (by omega) ends, keeps' (by omega) ends'] at rel
    cases rel with
    | some rel => exact rel

namespace Simulation

variable [Outlet σ] (sim : Simulation R)
include sim

theorem settle_error {m n : Machine σ} (rel : R m n) (failure : Failure) :
    R (settle kind (.error failure, m)) (settle kind (.error failure, n)) :=
  sim.fail (sim.log rel _) failure

theorem contain {act : Execution σ} (h : Respects R kind act) {m n : Machine σ} (rel : R m n) :
    Option.Rel R (contain kind act m) (contain kind act n) :=
  h (sim.log rel _)

/-- Both evaluate alike, so both go on with the same value or settle the same failure. -/
theorem onValue {α : Type} {e : Evaluation α} (faithful : e.Faithful) {next : α → Execution σ}
    (h : ∀ a, Respects R kind (next a)) : Respects R kind (onValue e next) := by
  intro m n rel
  obtain ⟨same, rel'⟩ := sim.evaluate rel faithful
  cases value : (e m.store).1 with
  | error failure =>
      rw [onValue_error value, onValue_error (same ▸ value)]
      exact .some (sim.settle_error rel' failure)
  | ok a =>
      rw [onValue_ok value, onValue_ok (same ▸ value)]
      exact h a rel'

/-- By induction on the bound on the rounds. -/
theorem iterate {test : Evaluation Bool} (faithful : test.Faithful)
    {body : Machine σ → Option (Machine σ)}
    (h : ∀ {m n : Machine σ}, R m n → Option.Rel R (body m) (body n)) (rounds : Nat) :
    Respects R kind (iterate test body rounds) := by
  induction rounds with
  | zero => exact fun _ _ _ => .none
  | succ rounds ih =>
      rw [iterate_succ]
      refine sim.onValue faithful fun holds m n rel => ?_
      cases holds with
      | false => exact .some rel
      | true =>
          simp only [if_true, Option.map_bind]
          exact rel_bind (h rel) fun rel => ih rel

theorem performAll {rounds : Nat} {nodes : List Node}
    (h : ∀ node ∈ nodes, Respects R node.kind (node.perform rounds)) {m n : Machine σ}
    (rel : R m n) : Option.Rel R (performAll rounds nodes m) (performAll rounds nodes n) := by
  induction nodes generalizing m n with
  | nil => exact .some rel
  | cons node nodes ih =>
      rw [WhenLoop.performAll]
      refine rel_bind (sim.contain (h node List.mem_cons_self) rel) fun rel => ?_
      exact ih (fun other mem => h other (List.mem_cons_of_mem node mem)) rel

/-- Related machines run every tree in lockstep. -/
theorem perform (rounds : Nat) (node : Node) : Respects R node.kind (node.perform rounds) := by
  induction node using Node.statement_induction with
  | other node other =>
      intro m n rel
      rw [other, other]
      exact .some (sim.settle_error rel _)
  | assign target value =>
      rw [Node.perform_assign]
      exact sim.onValue value.evaluate_faithful fun v m n rel => .some (sim.assign rel target v)
  | out value =>
      rw [Node.perform_out]
      exact sim.onValue value.evaluate_faithful fun v m n rel => .some (sim.print rel v)
  | when condition thenBranch elseBranch ih ih' =>
      rw [Node.perform_when]
      refine sim.onValue condition.test_faithful fun holds m n rel => ?_
      rw [settle_success, settle_success]
      cases holds with
      | true => exact sim.contain ih rel
      | false =>
          cases elseBranch with
          | none => exact .some rel
          | some branch => exact sim.contain (ih' branch rfl) rel
  | loop condition body ih =>
      rw [Node.perform_loop]
      exact sim.iterate condition.test_faithful (sim.contain ih) rounds
  | seq statements ih =>
      intro m n rel
      rw [Node.perform_seq, settle_success, settle_success]
      exact sim.performAll ih rel

/-- Behind the boundary, and where a statement is missing, the machines are still related. -/
theorem contained (rounds : Nat) (statement : Option Node) {m n : Machine σ} (rel : R m n) :
    Option.Rel R (contained rounds statement m) (contained rounds statement n) := by
  cases statement with
  | none => exact .some rel
  | some node => exact sim.contain (sim.perform rounds node) rel

/-- Related machines run every program to related ends. -/
theorem run (rounds : Nat) (root : Option Node) {m n : Machine σ} (rel : R m n) :
    Option.Rel (fun m' n' => ∃ a b, R a b ∧ m' = finish a ∧ n' = finish b)
      (m.run rounds root) (n.run rounds root) := by
  have ends := sim.contained rounds root (sim.log rel .executing)
  exact rel_map ends fun rel' => ⟨_, _, rel', rfl, rfl⟩

/-- A program ends on both of two related machines or on neither, and leaves related ends. -/
theorem runsTo (root : Option Node) {m n : Machine σ} (rel : R m n) :
    ((∃ m', m.RunsTo root m') ↔ ∃ n', n.RunsTo root n') ∧
    ∀ m' n', m.RunsTo root m' → n.RunsTo root n' →
      ∃ a b, R a b ∧ m' = finish a ∧ n' = finish b :=
  ends_of_lockstep (fun le => run_mono le) (fun le => run_mono le)
    fun rounds (_ : 0 ≤ rounds) => sim.run rounds root rel

end Simulation

end Machine

end WhenLoop
