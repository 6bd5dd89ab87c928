import WhenLoop.Proofs.Execution

/-!
# What a run does, action by action

A run takes a machine through a course of actions: it enters statements, evaluates, assigns,
prints, and leaves the statements that it ran behind a boundary with their results.  `Action` is
one of them, `Action.on` is what it leaves of a machine, and `Node.Does` says which actions a
statement takes, in which order, and with which result.

Every run that ends follows such a course (`Node.perform_does`, `Call.answer_does`, and
`Machine.Serves.course` for calls one after the other).  So a property of all runs is shown for
each action alone and goes through the course by induction over its actions.  The machines in
the middle of a run are those that the first actions of its course lead to.

An action is about a part of the tree that is run (`Action.Concerns`).  The statements that are
left behind a boundary are proper parts of it: no statement leaves itself.
-/

namespace WhenLoop

variable {σ : Type} [Outlet σ]

/-! ## Parts of a tree -/

namespace Node

/-- The nodes right below a node. -/
def children : Node → List Node
  | num _ | var _ => []
  | neg node | not node | nonzero node | assign _ node | out node => [node]
  | arith _ left right | compare _ left right | and left right | or left right => [left, right]
  | when condition thenBranch elseBranch => condition :: thenBranch :: elseBranch.toList
  | loop condition body => [condition, body]
  | seq statements => statements

/-- The node is the tree itself or stands somewhere in it. -/
inductive OccursIn (node : Node) : Node → Prop where
  | self : node.OccursIn node
  | inside {child tree : Node} : child ∈ tree.children → node.OccursIn child → node.OccursIn tree

/-- The node stands in the tree and is not the tree itself. -/
def OccursBelow (node tree : Node) : Prop := ∃ child ∈ tree.children, node.OccursIn child

variable {node part tree : Node}

theorem OccursBelow.occursIn (h : node.OccursBelow tree) : node.OccursIn tree := by
  obtain ⟨child, mem, part⟩ := h
  exact .inside mem part

theorem OccursIn.trans (h : node.OccursIn part) (h' : part.OccursIn tree) :
    node.OccursIn tree := by
  induction h' with
  | self => exact h
  | inside mem _ ih => exact .inside mem ih

theorem OccursBelow.trans_in (h : part.OccursBelow tree) (h' : node.OccursIn part) :
    node.OccursBelow tree := by
  obtain ⟨child, mem, inside⟩ := h
  exact ⟨child, mem, h'.trans inside⟩

theorem occursBelow_of_child (mem : node ∈ tree.children) : node.OccursBelow tree :=
  ⟨node, mem, .self⟩

/-- A node of a tree is its root or stands below it. -/
theorem occursIn_iff : node.OccursIn tree ↔ node = tree ∨ node.OccursBelow tree := by
  constructor
  · rintro (_ | ⟨mem, inside⟩)
    · exact .inl rfl
    · exact .inr ⟨_, mem, inside⟩
  · rintro (rfl | below)
    · exact .self
    · exact below.occursIn

end Node

/-! ## Actions -/

/-- One thing that is done to a machine in a run. -/
inductive Action where
  /-- A call brings its store. -/
  | bring (store : Store)
  /-- A program starts. -/
  | start
  /-- A statement is entered. -/
  | enter (statement : Node)
  /-- An expression is evaluated. -/
  | evaluate (expression : Node)
  /-- A condition is evaluated. -/
  | test (condition : Node)
  /-- A name is bound to a value. -/
  | assign (target : String) (value : Int32)
  /-- A value is printed. -/
  | print (value : Int32)
  /-- A statement that ran behind its boundary is left, with its result. -/
  | leave (statement : Node) (result : Except Failure Unit)
  /-- A program ends, with the result of its last flush. -/
  | finish (result : Except Failure Unit)

/-- What an action leaves of a machine. -/
def Action.on (m : Machine σ) : Action → Machine σ
  | bring store => { m with store := store }
  | start => m.log .executing
  | enter statement => m.log (.entering statement.kind)
  | evaluate expression => { m with store := (expression.evaluate m.store).2 }
  | test condition => { m with store := (condition.test m.store).2 }
  | assign target value => m.assign target value
  | print value => (m.print value).2
  | leave statement result => Machine.settle statement.kind (result, m)
  | finish result =>
      let m := match result with
        | .ok _ => m.flush.2
        | .error failure => m.flush.2.fail failure
      m.log (.finished m.errors m.store.size)

/-- The machine behind some actions. -/
def Machine.after (m : Machine σ) (actions : List Action) : Machine σ := actions.foldl Action.on m

theorem Machine.after_append (m : Machine σ) (first second : List Action) :
    m.after (first ++ second) = (m.after first).after second :=
  List.foldl_append

theorem Machine.after_cons (m : Machine σ) (action : Action) (actions : List Action) :
    m.after (action :: actions) = (action.on m).after actions := rfl

/-- The actions of a statement behind its boundary. -/
def Node.enclosed (statement : Node) (actions : List Action) (result : Except Failure Unit) :
    List Action :=
  .enter statement :: (actions ++ [.leave statement result])

/-! ## The course of a statement -/

namespace Node

/-- What a statement that was entered does to a machine, and its result. -/
inductive Does : Node → Machine σ → List Action → Except Failure Unit → Prop where
  | other {node : Node} {m : Machine σ} : node.IsOther →
      Does node m [] (.error (.notStatement node.kind))
  | assignFails {target : String} {value : Node} {m : Machine σ} {failure : Failure} :
      (value.evaluate m.store).1 = .error failure →
      Does (.assign target value) m [.evaluate value] (.error failure)
  | assigns {target : String} {value : Node} {m : Machine σ} {v : Int32} :
      (value.evaluate m.store).1 = .ok v →
      Does (.assign target value) m [.evaluate value, .assign target v] (.ok ())
  | outFails {value : Node} {m : Machine σ} {failure : Failure} :
      (value.evaluate m.store).1 = .error failure →
      Does (.out value) m [.evaluate value] (.error failure)
  | prints {value : Node} {m : Machine σ} {v : Int32} :
      (value.evaluate m.store).1 = .ok v →
      Does (.out value) m [.evaluate value, .print v] ((m.after [.evaluate value]).print v).1
  | whenFails {condition thenBranch : Node} {elseBranch : Option Node} {m : Machine σ}
      {failure : Failure} :
      (condition.test m.store).1 = .error failure →
      Does (.when condition thenBranch elseBranch) m [.test condition] (.error failure)
  | skips {condition thenBranch : Node} {elseBranch : Option Node} {m : Machine σ} {holds : Bool} :
      (condition.test m.store).1 = .ok holds →
      (if holds then some thenBranch else elseBranch) = none →
      Does (.when condition thenBranch elseBranch) m [.test condition] (.ok ())
  | branches {condition thenBranch branch : Node} {elseBranch : Option Node} {m : Machine σ}
      {holds : Bool} {actions : List Action} {result : Except Failure Unit} :
      (condition.test m.store).1 = .ok holds →
      (if holds then some thenBranch else elseBranch) = some branch →
      Does branch (m.after [.test condition, .enter branch]) actions result →
      Does (.when condition thenBranch elseBranch) m
        (.test condition :: branch.enclosed actions result) (.ok ())
  | loopFails {condition body : Node} {m : Machine σ} {failure : Failure} :
      (condition.test m.store).1 = .error failure →
      Does (.loop condition body) m [.test condition] (.error failure)
  | loopEnds {condition body : Node} {m : Machine σ} :
      (condition.test m.store).1 = .ok false →
      Does (.loop condition body) m [.test condition] (.ok ())
  | round {condition body : Node} {m : Machine σ} {actions others : List Action}
      {result result' : Except Failure Unit} :
      (condition.test m.store).1 = .ok true →
      Does body (m.after [.test condition, .enter body]) actions result →
      Does (.loop condition body)
        (m.after (.test condition :: body.enclosed actions result)) others result' →
      Does (.loop condition body) m
        (.test condition :: body.enclosed actions result ++ others) result'
  | nothing {m : Machine σ} : Does (.seq []) m [] (.ok ())
  | first {node : Node} {nodes : List Node} {m : Machine σ} {actions others : List Action}
      {result result' : Except Failure Unit} :
      Does node (m.after [.enter node]) actions result →
      Does (.seq nodes) (m.after (node.enclosed actions result)) others result' →
      Does (.seq (node :: nodes)) m (node.enclosed actions result ++ others) result'

/-- Every run of the statement that ends has a course. -/
def HasCourse (node : Node) (act : Execution σ) : Prop :=
  ∀ ⦃m m' : Machine σ⦄ ⦃result : Except Failure Unit⦄, act m = some (result, m') →
    ∃ actions, node.Does m actions result ∧ m.after actions = m'

end Node

/-! ## Runs that end have a course -/

open Machine (contain iterate onValue)

/-- What runs behind a boundary has the course of the statement, entered and left. -/
theorem Node.HasCourse.contain {node : Node} {act : Execution σ} (h : node.HasCourse act)
    {m m' : Machine σ} (run : contain node.kind act m = some m') :
    ∃ actions result, node.Does (m.after [.enter node]) actions result ∧
      m.after (node.enclosed actions result) = m' := by
  obtain ⟨⟨result, left⟩, done, rfl⟩ := Option.map_eq_some_iff.mp run
  obtain ⟨actions, does, rfl⟩ := h done
  refine ⟨actions, result, does, ?_⟩
  rw [Node.enclosed, Machine.after_cons, Machine.after_append]
  rfl

/-- By induction on the bound.  Each round is a test and a contained body, and the loop ends with a
test that fails or is false. -/
theorem Node.iterate_does {condition body : Node} {act : Execution σ} (h : body.HasCourse act)
    (rounds : Nat) :
    (Node.loop condition body).HasCourse
      (iterate condition.test (Machine.contain body.kind act) rounds) := by
  induction rounds with
  | zero =>
      intro m m' result run
      cases run
  | succ rounds ih =>
      intro m m' result run
      rw [Machine.iterate_succ] at run
      rcases Machine.onValue_cases run with ⟨failure, fails, rfl, rfl⟩ | ⟨holds, value, run⟩
      · exact ⟨_, .loopFails fails, rfl⟩
      · cases holds with
        | false =>
            cases run
            exact ⟨_, .loopEnds value, rfl⟩
        | true =>
            -- one round of the body, and what is left of the loop
            obtain ⟨between, bodyRun, rest⟩ := Option.bind_eq_some_iff.mp run
            obtain ⟨actions, inner, does, rfl⟩ := h.contain bodyRun
            obtain ⟨others, goesOn, rfl⟩ := ih rest
            exact ⟨_, .round value does goesOn, Machine.after_append _ _ _⟩

/-- By induction on the list.  Each statement has a course, and behind its boundary the list goes
on. -/
theorem performAll_does {rounds : Nat} {nodes : List Node}
    {m m' : Machine σ}
    (h : ∀ node ∈ nodes, node.HasCourse (node.perform rounds : Execution σ))
    (run : performAll rounds nodes m = some m') :
    ∃ actions, (Node.seq nodes).Does m actions (.ok ()) ∧ m.after actions = m' := by
  induction nodes generalizing m with
  | nil =>
      cases run
      exact ⟨[], .nothing, rfl⟩
  | cons node nodes ih =>
      rw [performAll] at run
      obtain ⟨between, first, rest⟩ := Option.bind_eq_some_iff.mp run
      obtain ⟨actions, result, does, rfl⟩ := (h node List.mem_cons_self).contain first
      obtain ⟨others, goesOn, rfl⟩ := ih (fun other mem => h other (.tail node mem)) rest
      exact ⟨_, .first does goesOn, Machine.after_append _ _ _⟩

/-- Every run of a statement that ends has a course. -/
theorem Node.perform_does (rounds : Nat) (node : Node) :
    node.HasCourse (node.perform rounds : Execution σ) := by
  induction node using Node.statement_induction with
  | other node other =>
      intro m m' result run
      rw [other] at run
      cases run
      exact ⟨[], .other other, rfl⟩
  | assign target value =>
      intro m m' result run
      rw [perform_assign] at run
      rcases Machine.onValue_cases run with ⟨failure, fails, rfl, rfl⟩ | ⟨v, evaluated, run⟩
      · exact ⟨_, .assignFails fails, rfl⟩
      · cases run
        exact ⟨_, .assigns evaluated, rfl⟩
  | out value =>
      intro m m' result run
      rw [perform_out] at run
      rcases Machine.onValue_cases run with ⟨failure, fails, rfl, rfl⟩ | ⟨v, evaluated, run⟩
      · exact ⟨_, .outFails fails, rfl⟩
      · obtain ⟨rfl, rfl⟩ := Prod.ext_iff.mp (Option.some.inj run)
        exact ⟨_, .prints evaluated, rfl⟩
  | when condition thenBranch elseBranch ih ih' =>
      intro m m' result run
      rw [perform_when] at run
      rcases Machine.onValue_cases run with ⟨failure, fails, rfl, rfl⟩ | ⟨holds, value, run⟩
      · exact ⟨_, .whenFails fails, rfl⟩
      · obtain ⟨left, branchRun, same⟩ := Option.map_eq_some_iff.mp run
        cases same
        cases chosen : (if holds then some thenBranch else elseBranch) with
        | none =>
            rw [chosen] at branchRun
            cases branchRun
            exact ⟨_, .skips value chosen, rfl⟩
        | some branch =>
            have course : branch.HasCourse (branch.perform rounds : Execution σ) := by
              cases holds with
              | true => exact Option.some.inj chosen ▸ ih
              | false => exact ih' branch chosen
            rw [chosen] at branchRun
            obtain ⟨actions, inner, does, rfl⟩ := course.contain branchRun
            exact ⟨_, .branches value chosen does, rfl⟩
  | loop condition body ih =>
      rw [perform_loop]
      exact iterate_does ih rounds
  | seq statements ih =>
      intro m m' result run
      rw [perform_seq] at run
      obtain ⟨left, all, same⟩ := Option.map_eq_some_iff.mp run
      cases same
      exact performAll_does ih all

/-! ## What the actions are about -/

namespace Action

/-- The action is part of running the tree: it is about nodes that stand in it.  To start and to
end a program is not. -/
def Concerns (tree : Node) : Action → Prop
  | enter node | leave node _ | evaluate node | test node => node.OccursBelow tree
  | assign target _ => ∃ value, (Node.assign target value).OccursIn tree
  | print _ => ∃ value, (Node.out value).OccursIn tree
  | bring _ | start | finish _ => False

/-- What concerns a part concerns the tree, if the nodes below the part are below the tree and those
in it that are no lists are in the tree. -/
theorem Concerns.mono {action : Action} {part tree : Node} (h : action.Concerns part)
    (below : ∀ node : Node, node.OccursBelow part → node.OccursBelow tree)
    (inside : ∀ node : Node, node.kind ≠ .seq → node.OccursIn part → node.OccursIn tree) :
    action.Concerns tree := by
  cases action with
  | enter node => exact below node h
  | leave node result => exact below node h
  | evaluate node => exact below node h
  | test node => exact below node h
  | assign target value =>
      obtain ⟨value, occurs⟩ := h
      exact ⟨value, inside _ nofun occurs⟩
  | print value =>
      obtain ⟨value, occurs⟩ := h
      exact ⟨value, inside _ nofun occurs⟩
  | bring store => exact h
  | start => exact h
  | finish result => exact h

/-- What concerns a node below the tree concerns the tree. -/
theorem Concerns.of_part {action : Action} {part tree : Node} (h : action.Concerns part)
    (occurs : part.OccursBelow tree) : action.Concerns tree :=
  h.mono (fun _ below => occurs.trans_in below.occursIn) fun _ _ inside =>
    inside.trans occurs.occursIn

/-- A statement of the tree that is run behind its boundary. -/
theorem concerns_enclosed {statement tree : Node} {actions : List Action}
    {result : Except Failure Unit} (child : statement ∈ tree.children)
    (h : ∀ action ∈ actions, action.Concerns statement) :
    ∀ action ∈ statement.enclosed actions result, action.Concerns tree := by
  have occurs := Node.occursBelow_of_child child
  intro action mem
  rw [Node.enclosed, List.mem_cons, List.mem_append, List.mem_singleton] at mem
  rcases mem with rfl | inner | rfl
  · exact occurs
  · exact (h action inner).of_part occurs
  · exact occurs

end Action

/-- The actions of a statement are about what stands in it. -/
theorem Node.Does.concerns {node : Node} {m : Machine σ} {actions : List Action}
    {result : Except Failure Unit} (h : node.Does m actions result) :
    ∀ action ∈ actions, action.Concerns node := by
  induction h with
  | other _ => exact List.forall_mem_nil _
  | nothing => exact List.forall_mem_nil _
  | assignFails _ | outFails _ | whenFails _ | skips _ _ | loopFails _ | loopEnds _ =>
      exact List.forall_mem_singleton.mpr (occursBelow_of_child List.mem_cons_self)
  | @assigns target value _ _ _ =>
      refine List.forall_mem_cons.mpr ⟨occursBelow_of_child List.mem_cons_self, ?_⟩
      exact List.forall_mem_singleton.mpr ⟨value, .self⟩
  | @prints value _ _ _ =>
      refine List.forall_mem_cons.mpr ⟨occursBelow_of_child List.mem_cons_self, ?_⟩
      exact List.forall_mem_singleton.mpr ⟨value, .self⟩
  | @branches condition thenBranch branch elseBranch _ holds _ _ _ chosen _ ih =>
      have child : branch ∈ (Node.when condition thenBranch elseBranch).children := by
        cases holds with
        | true =>
            cases chosen
            simp [children]
        | false =>
            simp only [Bool.false_eq_true, if_false] at chosen
            simp [children, chosen]
      refine List.forall_mem_cons.mpr ⟨occursBelow_of_child List.mem_cons_self, ?_⟩
      exact Action.concerns_enclosed child ih
  | round _ _ _ ih ih' =>
      refine List.forall_mem_append.mpr ⟨?_, ih'⟩
      refine List.forall_mem_cons.mpr ⟨occursBelow_of_child List.mem_cons_self, ?_⟩
      exact Action.concerns_enclosed (.tail _ List.mem_cons_self) ih
  | @first node nodes _ _ _ _ _ _ _ ih ih' =>
      refine List.forall_mem_append.mpr ⟨Action.concerns_enclosed List.mem_cons_self ih, ?_⟩
      intro action mem
      refine (ih' action mem).mono ?_ ?_
      · rintro part ⟨child, mem, inside⟩
        exact ⟨child, .tail node mem, inside⟩
      · -- the rest of a list is a list, so what stands in it and is none stands below it
        intro part other occurs
        cases occurs with
        | self => exact absurd rfl other
        | inside mem inside => exact .inside (.tail node mem) inside

/-! ## Calls -/

/-- How a statement is called: without its boundary, behind it, or as a program. -/
inductive Manner where
  | execute | contain | run
deriving DecidableEq, Repr

/-- A call on a machine: the statement, which may be missing, and the store to run it on. -/
structure Call where
  manner : Manner
  statement : Option Node
  store : Store

/-- Answer a call.  Behind a boundary and as a program a statement does not fail. -/
def Call.answer (call : Call) (rounds : Nat) (m : Machine σ) :
    Option (Except Failure Unit × Machine σ) :=
  let m := { m with store := call.store }
  match call.manner with
  | .execute => WhenLoop.execute rounds call.statement m
  | .contain => (contained rounds call.statement m).map fun m => (.ok (), m)
  | .run => (m.run rounds call.statement).map fun m => (.ok (), m)

/-- What a statement that may be missing does behind its boundary. -/
inductive DoesBehind (m : Machine σ) : Option Node → List Action → Prop where
  | none : DoesBehind m none []
  | some {node : Node} {actions : List Action} {result : Except Failure Unit} :
      node.Does (m.after [.enter node]) actions result →
      DoesBehind m (some node) (node.enclosed actions result)

/-- What a call does to a machine, and its result. -/
inductive Call.Does (m : Machine σ) : Call → List Action → Except Failure Unit → Prop where
  | executeNone {store : Store} : Does m ⟨.execute, none, store⟩ [.bring store] (.ok ())
  | execute {node : Node} {store : Store} {actions : List Action} {result : Except Failure Unit} :
      node.Does (m.after [.bring store, .enter node]) actions result →
      Does m ⟨.execute, some node, store⟩ (.bring store :: .enter node :: actions) result
  | contain {statement : Option Node} {store : Store} {actions : List Action} :
      DoesBehind (m.after [.bring store]) statement actions →
      Does m ⟨.contain, statement, store⟩ (.bring store :: actions) (.ok ())
  | run {statement : Option Node} {store : Store} {actions : List Action} :
      DoesBehind (m.after [.bring store, .start]) statement actions →
      Does m ⟨.run, statement, store⟩
        (.bring store :: .start :: (actions ++
          [.finish (m.after (.bring store :: .start :: actions)).flush.1])) (.ok ())

/-- A statement behind its boundary has a course, and a missing one does nothing. -/
theorem contained_does {rounds : Nat} {statement : Option Node} {m m' : Machine σ}
    (run : contained rounds statement m = some m') :
    ∃ actions, DoesBehind m statement actions ∧ m.after actions = m' := by
  cases statement with
  | none =>
      cases run
      exact ⟨[], .none, rfl⟩
  | some node =>
      rw [contained] at run
      obtain ⟨actions, result, does, same⟩ := (node.perform_does rounds).contain run
      exact ⟨_, .some does, same⟩

/-- To finish is one action, with the result of the last flush. -/
theorem Machine.finish_eq (m : Machine σ) : m.finish = (Action.finish m.flush.1).on m := by
  simp only [Machine.finish, Action.on]
  cases m.flush with
  | mk result left => cases result <;> rfl

/-- Every call that is answered has a course. -/
theorem Call.answer_does {call : Call} {rounds : Nat} {m m' : Machine σ}
    {result : Except Failure Unit} (answered : call.answer rounds m = some (result, m')) :
    ∃ actions, call.Does m actions result ∧ m.after actions = m' := by
  obtain ⟨manner, statement, store⟩ := call
  cases manner with
  | execute =>
      cases statement with
      | none =>
          cases answered
          exact ⟨_, .executeNone, rfl⟩
      | some node =>
          obtain ⟨actions, does, same⟩ := node.perform_does rounds answered
          exact ⟨_, .execute does, same⟩
  | contain =>
      obtain ⟨left, ran, same⟩ := Option.map_eq_some_iff.mp answered
      cases same
      obtain ⟨actions, does, same⟩ := contained_does ran
      exact ⟨_, .contain does, same⟩
  | run =>
      obtain ⟨left, ran, same⟩ := Option.map_eq_some_iff.mp answered
      cases same
      obtain ⟨last, done, rfl⟩ := Option.map_eq_some_iff.mp ran
      obtain ⟨actions, does, rfl⟩ := contained_does done
      refine ⟨_, .run does, ?_⟩
      rw [Machine.after_cons, Machine.after_cons, Machine.after_append, Machine.finish_eq]
      rfl

namespace Machine

/-- The machine answers the calls one after the other, and this machine is left. -/
inductive Serves : Machine σ → List Call → Machine σ → Prop where
  | done {m : Machine σ} : Serves m [] m
  | next {m between m' : Machine σ} {call : Call} {calls : List Call} {rounds : Nat}
      {result : Except Failure Unit} :
      call.answer rounds m = some (result, between) → Serves between calls m' →
      Serves m (call :: calls) m'

/-- What calls do to a machine, one after the other. -/
inductive Course : Machine σ → List Call → List Action → Prop where
  | done {m : Machine σ} : Course m [] []
  | next {m : Machine σ} {call : Call} {calls : List Call} {actions others : List Action}
      {result : Except Failure Unit} :
      call.Does m actions result → Course (m.after actions) calls others →
      Course m (call :: calls) (actions ++ others)

/-- Calls that are answered have a course. -/
theorem Serves.course {m m' : Machine σ} {calls : List Call} (h : m.Serves calls m') :
    ∃ actions, m.Course calls actions ∧ m.after actions = m' := by
  induction h with
  | done => exact ⟨[], .done, rfl⟩
  | next answered _ ih =>
      obtain ⟨actions, does, rfl⟩ := Call.answer_does answered
      obtain ⟨others, course, rfl⟩ := ih
      exact ⟨_, .next does course, after_append _ _ _⟩

end Machine

end WhenLoop
