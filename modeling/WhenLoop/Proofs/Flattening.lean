import WhenLoop.Proofs.Unrolling

/-!
# Blocks are transparent

A statement list never fails.  Each of its statements has a boundary of its own, and the boundary
of the list around them has nothing to report.  So a list may be opened wherever it stands.

`Node.flatten` opens them all.  The elements of a list in a list become elements of the outer
one, and a list of one element that is a branch or a body becomes that element.  It does so in
every part of a tree, also where a list is out of place.  There nothing is run, and the list is
still a list, so the failure is the same.  What is left is `Node.Flat`.

A tree and its flattening make the same rounds of each loop, so their runs are in step under
every bound (`Node.flatten_inStep`).
-/

namespace WhenLoop

namespace Node

/-! ## Flattening -/

/-- What a node adds to a list in which it stands: a list its elements, and every other node
itself. -/
def elements : Node → List Node
  | seq statements => statements
  | node => [node]

/-- The element of a list of one element, and every other node itself. -/
def unwrapped : Node → Node
  | seq [node] => node
  | node => node

end Node

mutual

/-- The tree with all lists in lists opened, and all branches and bodies of one element. -/
def Node.flatten : Node → Node
  | .num value => .num value
  | .var name => .var name
  | .arith op left right => .arith op left.flatten right.flatten
  | .neg operand => .neg operand.flatten
  | .compare op left right => .compare op left.flatten right.flatten
  | .and left right => .and left.flatten right.flatten
  | .or left right => .or left.flatten right.flatten
  | .not operand => .not operand.flatten
  | .nonzero operand => .nonzero operand.flatten
  | .assign target value => .assign target value.flatten
  | .when condition thenBranch elseBranch =>
      .when condition.flatten thenBranch.flatten.unwrapped (flattenBranch elseBranch)
  | .loop condition body => .loop condition.flatten body.flatten.unwrapped
  | .out value => .out value.flatten
  | .seq statements => .seq (flattenAll statements)
termination_by structural node => node

/-- The flattening of a branch that may be missing. -/
def flattenBranch : Option Node → Option Node
  | none => none
  | some node => some node.flatten.unwrapped
termination_by structural branch => branch

/-- The flattening of the statements of a list. -/
def flattenAll : List Node → List Node
  | [] => []
  | node :: nodes => node.flatten.elements ++ flattenAll nodes
termination_by structural nodes => nodes

end

namespace Node

/-- No list in the tree is an element of another, and no branch and no body in it is a list of
one element. -/
inductive Flat : Node → Prop where
  | num {value : Int32} : Flat (.num value)
  | var {name : String} : Flat (.var name)
  | arith {op : ArithOp} {left right : Node} : Flat left → Flat right → Flat (.arith op left right)
  | neg {operand : Node} : Flat operand → Flat (.neg operand)
  | compare {op : CompareOp} {left right : Node} :
      Flat left → Flat right → Flat (.compare op left right)
  | and {left right : Node} : Flat left → Flat right → Flat (.and left right)
  | or {left right : Node} : Flat left → Flat right → Flat (.or left right)
  | not {operand : Node} : Flat operand → Flat (.not operand)
  | nonzero {operand : Node} : Flat operand → Flat (.nonzero operand)
  | assign {target : String} {value : Node} : Flat value → Flat (.assign target value)
  | when {condition thenBranch : Node} {elseBranch : Option Node} :
      Flat condition → Flat thenBranch → (∀ node, thenBranch ≠ .seq [node]) →
      (∀ branch ∈ elseBranch, Flat branch) → (∀ branch ∈ elseBranch, ∀ node, branch ≠ .seq [node]) →
      Flat (.when condition thenBranch elseBranch)
  | loop {condition body : Node} :
      Flat condition → Flat body → (∀ node, body ≠ .seq [node]) → Flat (.loop condition body)
  | out {value : Node} : Flat value → Flat (.out value)
  | seq {statements : List Node} :
      (∀ node ∈ statements, Flat node) → (∀ node ∈ statements, node.kind ≠ .seq) →
      Flat (.seq statements)

theorem elements_eq {node : Node} (other : node.kind ≠ .seq) : node.elements = [node] := by
  cases node with
  | seq statements => exact absurd rfl other
  | _ => rfl

/-- A node is unwrapped if it is a list of one element, and is left as it is if not. -/
theorem unwrapped_cases (node : Node) :
    (∃ part, node = .seq [part] ∧ node.unwrapped = part) ∨
      (∀ part, node ≠ .seq [part]) ∧ node.unwrapped = node := by
  unfold unwrapped
  split
  · exact .inl ⟨_, rfl, rfl⟩
  · rename_i other
    exact .inr ⟨other, rfl⟩

namespace Flat

variable {node : Node}

/-- The elements of a flat node are flat, and none of them is a list. -/
theorem elements (h : node.Flat) :
    (∀ part ∈ node.elements, part.Flat) ∧ ∀ part ∈ node.elements, part.kind ≠ .seq := by
  by_cases list : node.kind = .seq
  · cases h with
    | seq flat parts => exact ⟨flat, parts⟩
    | _ => cases list
  · rw [elements_eq list]
    simpa using ⟨h, list⟩

/-- A flat node is flat without its list of one element, and what was in that list is none. -/
theorem unwrapped (h : node.Flat) :
    node.unwrapped.Flat ∧ ∀ part, node.unwrapped ≠ .seq [part] := by
  rcases node.unwrapped_cases with ⟨part, rfl, same⟩ | ⟨other, same⟩
  · cases h with
    | seq flat parts =>
        rw [same]
        refine ⟨flat part (by simp), ?_⟩
        rintro inner rfl
        exact parts _ List.mem_cons_self rfl
  · rw [same]
    exact ⟨h, other⟩

end Flat

end Node

mutual

/-- By recursion on the tree, with branches and lists below.  A list is opened where it stands in
another, and a branch of one element is that element. -/
theorem Node.flatten_flat : ∀ node : Node, node.flatten.Flat
  | .num _ => .num
  | .var _ => .var
  | .arith _ left right => .arith left.flatten_flat right.flatten_flat
  | .neg operand => .neg operand.flatten_flat
  | .compare _ left right => .compare left.flatten_flat right.flatten_flat
  | .and left right => .and left.flatten_flat right.flatten_flat
  | .or left right => .or left.flatten_flat right.flatten_flat
  | .not operand => .not operand.flatten_flat
  | .nonzero operand => .nonzero operand.flatten_flat
  | .assign _ value => .assign value.flatten_flat
  | .when condition thenBranch elseBranch =>
      have first := thenBranch.flatten_flat.unwrapped
      .when condition.flatten_flat first.1 first.2
        (fun flat mem => (flattenBranch_flat elseBranch flat mem).1)
        (fun flat mem => (flattenBranch_flat elseBranch flat mem).2)
  | .loop condition body =>
      have flat := body.flatten_flat.unwrapped
      .loop condition.flatten_flat flat.1 flat.2
  | .out value => .out value.flatten_flat
  | .seq statements => .seq (flattenAll_flat statements).1 (flattenAll_flat statements).2

theorem flattenBranch_flat : ∀ (branch : Option Node), ∀ flat ∈ flattenBranch branch,
    flat.Flat ∧ ∀ node, flat ≠ .seq [node]
  | none, _, mem => nomatch mem
  | some branch, _, mem => by
      cases mem
      exact branch.flatten_flat.unwrapped

theorem flattenAll_flat : ∀ nodes : List Node,
    (∀ flat ∈ flattenAll nodes, flat.Flat) ∧ ∀ flat ∈ flattenAll nodes, flat.kind ≠ .seq
  | [] => ⟨List.forall_mem_nil _, List.forall_mem_nil _⟩
  | node :: nodes =>
      have first := node.flatten_flat.elements
      have others := flattenAll_flat nodes
      ⟨List.forall_mem_append.mpr ⟨first.1, others.1⟩,
        List.forall_mem_append.mpr ⟨first.2, others.2⟩⟩

end

/-! ## Runs in step -/

/-- Flattening changes no expression, since there are no lists in one. -/
theorem Node.evaluate_flatten : ∀ node : Node, node.flatten.evaluate = node.evaluate
  | .arith op left right => by
      rw [flatten, evaluate, left.evaluate_flatten, right.evaluate_flatten, evaluate]
  | .neg operand => by rw [flatten, evaluate, operand.evaluate_flatten, evaluate]
  | .num _ | .var _ | .compare _ _ _ | .and _ _ | .or _ _ | .not _ | .nonzero _ | .assign _ _
  | .when _ _ _ | .loop _ _ | .out _ | .seq _ => rfl

theorem Node.test_flatten : ∀ node : Node, node.flatten.test = node.test
  | .compare op left right => by
      rw [flatten, test, left.evaluate_flatten, right.evaluate_flatten, test]
  | .and left right => by rw [flatten, test, left.test_flatten, right.test_flatten, test]
  | .or left right => by rw [flatten, test, left.test_flatten, right.test_flatten, test]
  | .not operand => by rw [flatten, test, operand.test_flatten, test]
  | .nonzero operand => by rw [flatten, test, operand.evaluate_flatten, test]
  | .num _ | .var _ | .arith _ _ _ | .neg _ | .assign _ _ | .when _ _ _ | .loop _ _ | .out _
  | .seq _ => rfl

open Machine

variable {σ : Type}

/-- From the first run to the second and on to the third: logs differ twice, and nothing else. -/
theorem Machine.InStep.trans {first second third : Machine σ → Option (Machine σ)}
    (h : InStep first second) (h' : InStep second third) : InStep first third := by
  intro m n rel
  have left := h rel
  have right := h' (.refl n)
  generalize first m = a, second n = b, third n = c at left right
  cases left with
  | none => exact right
  | some rel =>
      cases right with
      | some rel' => exact .some (rel.trans rel')

variable [Outlet σ]

theorem performAll_cons (k : Nat) (node : Node) (nodes : List Node) :
    performAll k (node :: nodes) = fun m : Machine σ =>
      (contained k (some node) m).bind (performAll k nodes) := by
  funext m
  rw [performAll, contained]

theorem performAll_singleton (k : Nat) (node : Node) :
    (performAll k [node] : Machine σ → Option (Machine σ)) = contained k (some node) := by
  funext m
  rw [performAll_cons]
  exact Option.bind_fun_some _

namespace Node

/-- To run a node is to run what it adds to a list. -/
theorem elements_inStep (k : Nat) (node : Node) :
    InStep (contained k (some node) : Machine σ → Option (Machine σ))
      (performAll k node.elements) := by
  by_cases list : node.kind = .seq
  · cases node with
    | seq statements =>
        rw [contained_seq]
        have parts : InStep (performAll k statements : Machine σ → Option (Machine σ))
            (performAll k statements) := fun _ _ rel =>
          matches_simulation.performAll (fun part _ => matches_simulation.perform k part) rel
        exact parts.log_left _
    | _ => cases list
  · rw [elements_eq list, performAll_singleton]
    exact .contained k _

/-- A list of one element logs its own entry and exit, and does what the element does. -/
theorem unwrapped_inStep (k : Nat) (node : Node) :
    InStep (contained k (some node) : Machine σ → Option (Machine σ))
      (contained k (some node.unwrapped)) := by
  rcases node.unwrapped_cases with ⟨part, rfl, same⟩ | ⟨-, same⟩
  · rw [same, ← performAll_singleton k part]
    exact elements_inStep k (.seq [part])
  · rw [same]
    exact .contained k _

/-- Statements that are performed alike are contained alike. -/
theorem inStep_of_perform_eq {k : Nat} {node node' : Node} (kinds : node'.kind = node.kind)
    (same : (node'.perform k : Execution σ) = node.perform k) :
    InStep (contained k (some node) : Machine σ → Option (Machine σ))
      (contained k (some node')) := by
  have whole : (contained k (some node') : Machine σ → Option (Machine σ)) =
      contained k (some node) := by
    rw [contained, contained, kinds, same]
  rw [whole]
  exact .contained k _

end Node

mutual

/-- A tree and its flattening run in step under every bound. -/
theorem Node.flatten_inStep (k : Nat) : ∀ node : Node,
    InStep (contained k (some node) : Machine σ → Option (Machine σ))
      (contained k (some node.flatten))
  | .assign target value => by
      refine Node.inStep_of_perform_eq rfl ?_
      rw [Node.flatten, Node.perform_assign, Node.perform_assign, value.evaluate_flatten]
  | .out value => by
      refine Node.inStep_of_perform_eq rfl ?_
      rw [Node.flatten, Node.perform_out, Node.perform_out, value.evaluate_flatten]
  | .when condition thenBranch elseBranch => by
      rw [Node.flatten, contained, contained, Node.perform_when, Node.perform_when,
        condition.test_flatten]
      refine .contain (.onValue fun holds => ?_)
      rw [behind_success, behind_success]
      cases holds with
      | true => exact (thenBranch.flatten_inStep k).trans (thenBranch.flatten.unwrapped_inStep k)
      | false => exact flattenBranch_inStep k elseBranch
  | .loop condition body => by
      have bodies := (body.flatten_inStep k).trans (body.flatten.unwrapped_inStep k)
      rw [Node.flatten, contained, contained, Node.perform_loop, Node.perform_loop,
        condition.test_flatten]
      exact .contain (.iterate bodies k)
  | .seq statements => by
      rw [Node.flatten, contained_seq, contained_seq]
      exact ((flattenAll_inStep k statements).log_left _).log_right _
  -- a node that is no statement is not run, so its parts do not matter
  | .num _ | .var _ | .arith _ _ _ | .neg _ | .compare _ _ _ | .and _ _ | .or _ _ | .not _
  | .nonzero _ => Node.inStep_of_perform_eq rfl rfl

theorem flattenBranch_inStep (k : Nat) : ∀ branch : Option Node,
    InStep (contained k branch : Machine σ → Option (Machine σ))
      (contained k (flattenBranch branch))
  | none => .contained k none
  | some branch => (branch.flatten_inStep k).trans (branch.flatten.unwrapped_inStep k)

/-- By recursion on the list.  An element that is a list never fails, so without its boundary its
statements are run all the same. -/
theorem flattenAll_inStep (k : Nat) : ∀ nodes : List Node,
    InStep (performAll k nodes : Machine σ → Option (Machine σ))
      (performAll k (flattenAll nodes))
  | [] => fun _ _ rel => .some rel
  | node :: nodes => by
      have first := (node.flatten_inStep k).trans (node.flatten.elements_inStep k)
      have whole : performAll k (flattenAll (node :: nodes)) = fun m : Machine σ =>
          (performAll k node.flatten.elements m).bind (performAll k (flattenAll nodes)) := by
        funext m
        rw [flattenAll, performAll_append]
      rw [performAll_cons, whole]
      exact first.bind (flattenAll_inStep k nodes)

end

/-- The flattening of a tree has no list in a list, and no branch and no body of one element.
Behind its boundary it ends exactly where the tree does, from every machine, and what it leaves
differs in what was logged only. -/
theorem Node.flatten_transparent (node : Node) (m : Machine σ) :
    node.flatten.Flat ∧
    EndTogether Matches (fun rounds => contained rounds (some node) m)
      (fun rounds => contained rounds (some node.flatten) m) :=
  ⟨node.flatten_flat, ends_of_lockstep (fun le => contained_mono le _)
    (fun le => contained_mono le _) fun k (_ : 0 ≤ k) => node.flatten_inStep k (.refl m)⟩

example (x y : Node) (c : Int32) :
    (Node.seq [.seq [.out x, .seq []], .loop (.num c) (.seq [.seq [.out y]])]).flatten
      = .seq [.out x.flatten, .loop (.num c) (.out y.flatten)] := rfl

end WhenLoop
