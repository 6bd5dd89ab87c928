import WhenLoop.Proofs.Courses
import WhenLoop.Proofs.EvaluationOrder

/-!
# What a run leaves alone

A run loses no binding.  The names it binds stand in the tree, as a variable that was read or as
the target of an assignment, and only the targets of assignments get other values.  This holds of
every run that ends, with whatever failures on the way (`Call.answer_frame`).

`Store.Frame` says this of two stores.  A read that binds a name has it, because what it binds
had the value zero before (`Store.Binds`), and so has a write.  Behind each action of a course
the store is therefore framed by the tree that the action is about, and frames compose.
-/

namespace WhenLoop

variable {σ : Type} [Outlet σ]

/-! ## Frames -/

/-- From the first store to the second no binding is lost, the names that are bound anew are
mentioned, and the values that change are those of assigned names. -/
structure Store.Frame (mentioned assigned : String → Prop) (s t : Store) : Prop where
  keeps : ∀ name, s.contains name → t.contains name
  adds : ∀ name, t.contains name → s.contains name ∨ mentioned name
  values : ∀ name, ¬assigned name → t.value name = s.value name

namespace Store.Frame

variable {mentioned assigned mentioned' assigned' : String → Prop} {s t u : Store}

theorem refl (s : Store) : Frame mentioned assigned s s :=
  ⟨fun _ bound => bound, fun _ bound => .inl bound, fun _ _ => rfl⟩

/-- What was bound stays bound, and a value that changes does so in one of the two steps. -/
theorem trans (h : Frame mentioned assigned s t) (h' : Frame mentioned assigned t u) :
    Frame mentioned assigned s u := by
  refine ⟨fun name bound => h'.keeps name (h.keeps name bound), ?_, ?_⟩
  · intro name bound
    rcases h'.adds name bound with bound | mentions
    · exact h.adds name bound
    · exact .inr mentions
  · intro name unassigned
    rw [h'.values name unassigned, h.values name unassigned]

theorem mono (h : Frame mentioned assigned s t) (more : ∀ name, mentioned name → mentioned' name)
    (more' : ∀ name, assigned name → assigned' name) : Frame mentioned' assigned' s t where
  keeps := h.keeps
  adds name bound := (h.adds name bound).imp_right (more name)
  values name unassigned := h.values name fun assigns => unassigned (more' name assigns)

/-- A write is framed by the name it binds. -/
theorem write {name : String} (mentions : mentioned name) (assigns : assigned name)
    (value : Int32) : Frame mentioned assigned s (s.write name value) := by
  have bound (other : String) :
      (s.write name value).contains other = true ↔ name = other ∨ s.contains other = true := by
    simp [Store.write, contains, Std.TreeMap.contains_insert]
  refine ⟨fun other old => (bound other).mpr (.inr old), ?_, ?_⟩
  · intro other either
    rcases (bound other).mp either with rfl | old
    · exact .inr mentions
    · exact .inl old
  · intro other unassigned
    have different : name ≠ other := fun same => unassigned (same ▸ assigns)
    rw [value_write, if_neg different]

end Store.Frame

/-- Names that are bound to zero are framed if they are mentioned. -/
theorem Store.Binds.frame {names : List String} {mentioned assigned : String → Prop} {s t : Store}
    (h : Binds names s t) (mentions : ∀ name ∈ names, mentioned name) :
    Frame mentioned assigned s t := by
  have bound (name : String) : t.contains name = true ↔ s.contains name = true ∨ name ∈ names := by
    rw [contains, contains, Std.TreeMap.contains_eq_isSome_getElem?,
      Std.TreeMap.contains_eq_isSome_getElem?, h name]
    cases s.bindings[name]? <;> simp
  refine ⟨fun name old => (bound name).mpr (.inl old), ?_, fun name _ => congrFun h.value_eq name⟩
  intro name either
  exact ((bound name).mp either).imp_right (mentions name)

/-! ## Evaluation -/

namespace Node

/-- Somewhere in the tree the name is assigned to. -/
def Assigns (tree : Node) (name : String) : Prop :=
  ∃ value, (Node.assign name value).OccursIn tree

/-- Somewhere in the tree the name is read or assigned to. -/
def Mentions (tree : Node) (name : String) : Prop :=
  (Node.var name).OccursIn tree ∨ tree.Assigns name

/-- From the first store to the second only what stands in the tree has changed. -/
def Frames (tree : Node) (s t : Store) : Prop := Store.Frame tree.Mentions tree.Assigns s t

variable {part tree : Node}

/-- What a part may change the whole tree may change. -/
theorem Frames.of_part {s t : Store} (h : part.Frames s t) (occurs : part.OccursIn tree) :
    tree.Frames s t := by
  have assigns : ∀ name, part.Assigns name → tree.Assigns name := by
    rintro name ⟨value, inside⟩
    exact ⟨value, inside.trans occurs⟩
  refine h.mono (fun name mentions => ?_) assigns
  rcases mentions with read | assigned
  · exact .inl (read.trans occurs)
  · exact .inr (assigns name assigned)

/-- The nodes visited in an operand, and the node itself behind them, stand in the tree. -/
theorem occursIn_of_operand {operand : Node} {role : Role} {visits : List Visit}
    (child : operand ∈ tree.children) (h : ∀ visit ∈ visits, visit.node.OccursIn operand) :
    ∀ visit ∈ visits ++ [⟨role, tree⟩], visit.node.OccursIn tree := by
  intro visit mem
  rw [List.mem_append, List.mem_singleton] at mem
  rcases mem with here | rfl
  · exact .inside child (h visit here)
  · exact .self

theorem occursIn_of_operands {left right : Node} {role : Role} {first second : List Visit}
    (childL : left ∈ tree.children) (childR : right ∈ tree.children)
    (h : ∀ visit ∈ first, visit.node.OccursIn left)
    (h' : ∀ visit ∈ second, visit.node.OccursIn right) :
    ∀ visit ∈ first ++ (second ++ [⟨role, tree⟩]), visit.node.OccursIn tree := by
  intro visit mem
  rcases List.mem_append.mp mem with here | behind
  · exact .inside childL (h visit here)
  · exact occursIn_of_operand childR h' visit behind

/-- A visited node stands in the tree. -/
theorem occursIn_of_visit (node : Node) (role : Role) :
    ∀ visit ∈ node.visits role, visit.node.OccursIn node := by
  induction node, role using Node.visits.induct with
  | case1 op left right ihl ihr =>
      exact occursIn_of_operands List.mem_cons_self (.tail _ List.mem_cons_self) ihl ihr
  | case2 operand ih => exact occursIn_of_operand List.mem_cons_self ih
  | case3 op left right ihl ihr =>
      exact occursIn_of_operands List.mem_cons_self (.tail _ List.mem_cons_self) ihl ihr
  | case4 left right ihl ihr =>
      exact occursIn_of_operands List.mem_cons_self (.tail _ List.mem_cons_self) ihl ihr
  | case5 left right ihl ihr =>
      exact occursIn_of_operands List.mem_cons_self (.tail _ List.mem_cons_self) ihl ihr
  | case6 operand ih => exact occursIn_of_operand List.mem_cons_self ih
  | case7 operand ih => exact occursIn_of_operand List.mem_cons_self ih
  | case8 node role _ _ _ _ _ _ _ =>
      rw [visits]
      · exact List.forall_mem_singleton.mpr .self
      all_goals assumption

/-- A name that an evaluation reads is a variable of the tree. -/
theorem mentions_of_namesRead {values : String → Int32} {node : Node} {role : Role} {name : String}
    (mem : name ∈ namesRead values (node.visits role)) : node.Mentions name := by
  obtain ⟨visit, visited, named⟩ := List.mem_filterMap.mp mem
  have occurs := node.occursIn_of_visit role visit ((List.takeWhile_sublist _).subset visited)
  have isVar : visit.node = .var name := by
    rw [Visit.name?] at named
    split at named
    · rename_i same
      rw [same, Option.some.inj named]
    · cases named
  exact .inl (isVar ▸ occurs)

theorem frames_evaluate (node : Node) (s : Store) : node.Frames s (node.evaluate s).2 :=
  ((node.evaluate_follows s.value).binds rfl).frame fun _ => mentions_of_namesRead

theorem frames_test (node : Node) (s : Store) : node.Frames s (node.test s).2 :=
  ((node.test_follows s.value).binds rfl).frame fun _ => mentions_of_namesRead

end Node

/-! ## Runs -/

/-- What an action does to the store. -/
theorem Action.on_store (m : Machine σ) (action : Action) :
    (action.on m).store = match action with
      | bring store => store
      | evaluate expression => (expression.evaluate m.store).2
      | test condition => (condition.test m.store).2
      | assign target value => m.store.write target value
      | _ => m.store := by
  cases action with
  | start => exact m.log_store _
  | enter statement => exact m.log_store _
  | leave statement result =>
      cases result with
      | ok done => rfl
      | error failure => exact m.log_store _
  | print value =>
      rw [on, Machine.print_eq]
  | finish result =>
      cases result with
      | ok done => exact Machine.log_store _ _
      | error failure => exact Machine.log_store _ _
  | _ => rfl

/-- An action leaves alone what is not mentioned in the tree that it is about. -/
theorem Action.Concerns.frames {action : Action} {tree : Node} (h : action.Concerns tree)
    (m : Machine σ) : tree.Frames m.store (action.on m).store := by
  rw [Action.on_store]
  cases action with
  | evaluate expression => exact (expression.frames_evaluate m.store).of_part h.occursIn
  | test condition => exact (condition.frames_test m.store).of_part h.occursIn
  | assign target value => exact .write (.inr h) h value
  | bring store => cases h
  | _ => exact .refl m.store

/-- By induction on the actions: each of them concerns the tree, so it changes only what stands
there. -/
theorem Machine.frames_after {tree : Node} {actions : List Action}
    (h : ∀ action ∈ actions, action.Concerns tree) (m : Machine σ) :
    tree.Frames m.store (m.after actions).store := by
  induction actions generalizing m with
  | nil => exact .refl m.store
  | cons action actions ih =>
      obtain ⟨concerns, others⟩ := List.forall_mem_cons.mp h
      exact (concerns.frames m).trans (ih others (action.on m))

/-- What a statement does behind its boundary stays within its names, and a missing one changes
nothing. -/
theorem DoesBehind.frame {m : Machine σ} {statement : Option Node} {actions : List Action}
    (h : DoesBehind m statement actions) :
    Store.Frame (fun name => ∃ tree ∈ statement, tree.Mentions name)
      (fun name => ∃ tree ∈ statement, tree.Assigns name) m.store (m.after actions).store := by
  cases h with
  | none => exact .refl m.store
  | @some node actions result does =>
      have frames := Machine.frames_after does.concerns (m.after [.enter node])
      have left : (m.after (node.enclosed actions result)).store
          = ((m.after [.enter node]).after actions).store := by
        rw [Node.enclosed, Machine.after_cons, Machine.after_append]
        exact Action.on_store _ (.leave node result)
      have entered : (m.after [.enter node]).store = m.store := Action.on_store m (.enter node)
      rw [left, ← entered]
      exact frames.mono (fun _ mentions => ⟨node, rfl, mentions⟩) fun _ assigns =>
        ⟨node, rfl, assigns⟩

/-- What a call does is framed by the store it brings and the statement it runs. -/
theorem Call.Does.frame {call : Call} {m : Machine σ} {actions : List Action}
    {result : Except Failure Unit} (h : call.Does m actions result) :
    Store.Frame (fun name => ∃ tree ∈ call.statement, tree.Mentions name)
      (fun name => ∃ tree ∈ call.statement, tree.Assigns name) call.store
      (m.after actions).store := by
  cases h with
  | @executeNone store => exact .refl store
  | @execute node store actions _ does =>
      have frames := Machine.frames_after does.concerns (m.after [.bring store, .enter node])
      have entered : (m.after [.bring store, .enter node]).store = store :=
        Action.on_store (m.after [.bring store]) (.enter node)
      rw [entered] at frames
      exact frames.mono (fun _ mentions => ⟨node, rfl, mentions⟩) fun _ assigns =>
        ⟨node, rfl, assigns⟩
  | contain behind => exact behind.frame
  | @run statement store actions behind =>
      have started : (m.after [.bring store, .start]).store = store :=
        Action.on_store (m.after [.bring store]) .start
      have frame := behind.frame
      rw [started] at frame
      rw [Machine.after_cons, Machine.after_cons, Machine.after_append]
      let last := (m.after [.bring store, .start]).after actions
      exact (Action.on_store last (.finish _)).symm ▸ frame

/-- A statement that is called on a store and ends, without its boundary, behind it or as a
program, loses no binding of the store.  Every name that it binds occurs in it, as a variable or
as the target of an assignment.  Every name that is not the target of an assignment in it keeps
its value.  The result does not matter, and neither do the failures on the way. -/
theorem Call.answer_frame {call : Call} {rounds : Nat} {m m' : Machine σ}
    {result : Except Failure Unit} (answered : call.answer rounds m = some (result, m')) :
    (∀ name, call.store.contains name → m'.store.contains name) ∧
    (∀ name, m'.store.contains name → ¬call.store.contains name →
      ∃ tree ∈ call.statement, (Node.var name).OccursIn tree ∨
        ∃ value, (Node.assign name value).OccursIn tree) ∧
    ∀ name, (∀ tree ∈ call.statement, ∀ value, ¬(Node.assign name value).OccursIn tree) →
      m'.store.value name = call.store.value name := by
  obtain ⟨actions, does, rfl⟩ := Call.answer_does answered
  have frame := does.frame
  refine ⟨frame.keeps, fun name bound fresh => ?_, fun name unassigned => ?_⟩
  · exact (frame.adds name bound).resolve_left fresh
  · refine frame.values name ?_
    rintro ⟨tree, here, value, occurs⟩
    exact unassigned tree here value occurs

/-- A failed assignment to `y` binds the `w` that it read, and changes no value. -/
theorem Call.answer_frame_quotient :
    let call : Call := ⟨.contain, some (.assign "y" (.arith .div (.num 1) (.var "w"))),
      Store.empty.write "z" 5⟩
    ∃ m', call.answer 1 (.new Sink.unlimited none) = some (.ok (), m') ∧ m'.errors = 1 ∧
      m'.store.contains "z" ∧ m'.store.value "w" = 0 := by
  intro call
  obtain ⟨m', answered, errors⟩ :
      ∃ m', call.answer 1 (.new Sink.unlimited none) = some (.ok (), m') ∧ m'.errors = 1 :=
    ⟨_, rfl, rfl⟩
  obtain ⟨keeps, -, values⟩ := Call.answer_frame answered
  refine ⟨m', answered, errors, keeps "z" rfl, (values "w" ?_).trans rfl⟩
  rintro _ ⟨⟩ value occurs
  rcases Node.occursIn_iff.mp occurs with same | ⟨quotient, mem, occurs⟩
  · simp at same
  · cases List.mem_singleton.mp mem
    rcases Node.occursIn_iff.mp occurs with same | ⟨operand, mem, occurs⟩
    · cases same
    · simp only [Node.children, List.mem_cons, List.not_mem_nil, or_false] at mem
      rcases mem with rfl | rfl <;> cases occurs with
      | inside mem _ => cases mem

end WhenLoop
