import WhenLoop.Run.Execute

/-!
# More rounds keep a result

Execution with a bound on the rounds of a loop gives a result or none.  `perform_mono`
says that a result stays the same under every greater bound, so it belongs to the
statement and the machine, and not to the bound.  `contained_mono`, `performAll_mono` and
`Machine.run_mono` say the same of a statement behind its boundary, of a list, and of a
program.
-/

namespace WhenLoop

variable {σ : Type}

namespace Machine

/-- A boundary keeps the results of what is behind it. -/
theorem contain_mono {kind : NodeKind} {act act' : Execution σ}
    (keeps : ∀ {m r}, act m = some r → act' m = some r) {m m' : Machine σ}
    (h : contain kind act m = some m') : contain kind act' m = some m' := by
  obtain ⟨r, hr, rfl⟩ := Option.map_eq_some_iff.mp h
  exact Option.map_eq_some_iff.mpr ⟨r, keeps hr, rfl⟩

/-- A loop keeps its result with more rounds and a body that keeps its results. -/
theorem iterate_mono {test : Evaluation Bool} {body body' : Machine σ → Option (Machine σ)}
    (keeps : ∀ {m m'}, body m = some m' → body' m = some m') :
    ∀ {rounds more : Nat}, rounds ≤ more → ∀ {m r},
      iterate test body rounds m = some r → iterate test body' more m = some r
  | 0, _, _, m, r, h => by simp [iterate] at h
  | rounds + 1, 0, le, _, _, _ => absurd le (Nat.not_succ_le_zero rounds)
  | rounds + 1, more + 1, le, m, r, h => by
      simp only [iterate] at h ⊢
      split at h
      · exact h
      · exact h
      · obtain ⟨m', hm, hr⟩ := Option.bind_eq_some_iff.mp h
        exact Option.bind_eq_some_iff.mpr
          ⟨m', keeps hm, iterate_mono keeps (Nat.le_of_succ_le_succ le) hr⟩

end Machine

variable [Outlet σ]

mutual

/-- A statement keeps its result with more rounds. -/
theorem Node.perform_mono {rounds more : Nat} (le : rounds ≤ more) :
    ∀ (node : Node) {m : Machine σ} {r},
      node.perform rounds m = some r → node.perform more m = some r
  | .seq statements, m, r, h => by
      simp only [Node.perform] at h ⊢
      obtain ⟨m', hm, rfl⟩ := Option.map_eq_some_iff.mp h
      exact Option.map_eq_some_iff.mpr ⟨m', performAll_mono le statements hm, rfl⟩
  | .when condition thenBranch elseBranch, m, r, h => by
      simp only [Node.perform] at h ⊢
      split at h
      · exact h
      · obtain ⟨m', hm, rfl⟩ := Option.map_eq_some_iff.mp h
        exact Option.map_eq_some_iff.mpr
          ⟨m', Machine.contain_mono (Node.perform_mono le thenBranch) hm, rfl⟩
      · obtain ⟨m', hm, rfl⟩ := Option.map_eq_some_iff.mp h
        exact Option.map_eq_some_iff.mpr ⟨m', contained_mono le elseBranch hm, rfl⟩
  | .loop condition body, m, r, h => by
      simp only [Node.perform] at h ⊢
      exact Machine.iterate_mono (Machine.contain_mono (Node.perform_mono le body)) le h
  | .assign _ _, _, _, h => by simpa only [Node.perform] using h
  | .out _, _, _, h => by simpa only [Node.perform] using h
  | .num _, _, _, h => by simpa only [Node.perform] using h
  | .var _, _, _, h => by simpa only [Node.perform] using h
  | .arith _ _ _, _, _, h => by simpa only [Node.perform] using h
  | .neg _, _, _, h => by simpa only [Node.perform] using h
  | .compare _ _ _, _, _, h => by simpa only [Node.perform] using h
  | .and _ _, _, _, h => by simpa only [Node.perform] using h
  | .or _ _, _, _, h => by simpa only [Node.perform] using h
  | .not _, _, _, h => by simpa only [Node.perform] using h
  | .nonzero _, _, _, h => by simpa only [Node.perform] using h

/-- A statement behind its boundary keeps its result with more rounds. -/
theorem contained_mono {rounds more : Nat} (le : rounds ≤ more) :
    ∀ (statement : Option Node) {m m' : Machine σ},
      contained rounds statement m = some m' → contained more statement m = some m'
  | none, _, _, h => by simpa only [contained] using h
  | some node, _, _, h => by
      simp only [contained] at h ⊢
      exact Machine.contain_mono (Node.perform_mono le node) h

/-- A list of statements keeps its result with more rounds. -/
theorem performAll_mono {rounds more : Nat} (le : rounds ≤ more) :
    ∀ (nodes : List Node) {m m' : Machine σ},
      performAll rounds nodes m = some m' → performAll more nodes m = some m'
  | [], _, _, h => by simpa only [performAll] using h
  | node :: nodes, m, m', h => by
      simp only [performAll] at h ⊢
      obtain ⟨between, hfirst, hrest⟩ := Option.bind_eq_some_iff.mp h
      exact Option.bind_eq_some_iff.mpr
        ⟨between, Machine.contain_mono (Node.perform_mono le node) hfirst,
          performAll_mono le nodes hrest⟩

end

/-- A program keeps its result with more rounds. -/
theorem Machine.run_mono {rounds more : Nat} (le : rounds ≤ more) {root : Option Node}
    {m m' : Machine σ} (h : m.run rounds root = some m') : m.run more root = some m' := by
  obtain ⟨left, hleft, rfl⟩ := Option.map_eq_some_iff.mp h
  exact Option.map_eq_some_iff.mpr ⟨left, contained_mono le root hleft, rfl⟩

end WhenLoop
