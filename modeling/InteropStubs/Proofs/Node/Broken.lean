import InteropStubs.Node.FirstError
import InteropStubs.Proofs.SyntaxTree

/-!
# Broken nodes

`Node.broken` lists the broken nodes of a list in document order. `Node.hasError` says whether there
are any at or below a node, and so the marks of the syntax tree that `Node.firstError?` searches tell
the truth (`Node.marked_root`), and the search finds the first broken node of the list
(`Node.firstError?_eq_head?`).
-/

namespace InteropStubs.Node

mutual

/-- The broken nodes at or below a node, in document order. -/
def brokenIn : Node → List Node
  | namespaceBlock _ _ ms | interface _ _ ms | other _ _ ms => broken ms
  | usingDirective _ | method _ _ | property _ _ => []
  | n@(error ..) | n@(missing ..) => [n]

/-- The broken nodes of a list of nodes, in document order. -/
def broken : List Node → List Node
  | [] => []
  | n :: ns => brokenIn n ++ broken ns

end

mutual

theorem isBroken_of_mem_brokenIn {b : Node} : ∀ n : Node, b ∈ brokenIn n → b.isBroken = true
  | namespaceBlock _ _ ms, h | interface _ _ ms, h | other _ _ ms, h => isBroken_of_mem_broken ms h
  | error .., h | missing .., h => List.mem_singleton.mp h ▸ rfl

theorem isBroken_of_mem_broken {b : Node} : ∀ ns : List Node, b ∈ broken ns → b.isBroken = true
  | n :: ns, h => (List.mem_append.mp h).elim (isBroken_of_mem_brokenIn n) (isBroken_of_mem_broken ns)

end

mutual

theorem hasError_eq_false_iff : ∀ n : Node, hasError n = false ↔ brokenIn n = []
  | namespaceBlock _ _ ms | interface _ _ ms | other _ _ ms => anyHasError_eq_false_iff ms
  | usingDirective _ | method _ _ | property _ _ => by simp [hasError, brokenIn]
  | error .. | missing .. => by simp [hasError, brokenIn]

theorem anyHasError_eq_false_iff : ∀ ns : List Node, anyHasError ns = false ↔ broken ns = []
  | [] => by simp [anyHasError, broken]
  | n :: ns => by
      simp only [anyHasError, broken, Bool.or_eq_false_iff, List.append_eq_nil_iff,
        hasError_eq_false_iff n, anyHasError_eq_false_iff ns]

end

mutual

/-- The faults of the syntax tree of a node are the broken nodes at or below it. -/
theorem filter_nodes_tree : ∀ n : Node, (tree n).nodes.filter SyntaxTree.isBroken = (brokenIn n).map tree
  | namespaceBlock _ _ ms | interface _ _ ms | other _ _ ms => filter_nodesAmong_trees ms
  | usingDirective _ | method _ _ | property _ _ => rfl
  | error .. | missing .. => rfl

theorem filter_nodesAmong_trees : ∀ ns : List Node,
    (SyntaxTree.nodesAmong (trees ns)).filter SyntaxTree.isBroken = (broken ns).map tree
  | [] => rfl
  | n :: ns => by
      rw [trees, SyntaxTree.nodesAmong, List.filter_append, broken, List.map_append, filter_nodes_tree n,
        filter_nodesAmong_trees ns]

end

theorem hasError_tree : ∀ n : Node, (tree n).hasError = hasError n
  | namespaceBlock .. | interface .. | other .. => rfl
  | usingDirective _ | method .. | property .. => rfl
  | error .. | missing .. => rfl

theorem value_tree : ∀ n : Node, (tree n).value = some n
  | namespaceBlock .. | interface .. | other .. => rfl
  | usingDirective _ | method .. | property .. => rfl
  | error .. | missing .. => rfl

mutual

theorem exists_of_mem_nodes_tree {t : SyntaxTree (Option Node)} :
    ∀ n : Node, t ∈ (tree n).nodes → ∃ m, t = tree m
  | namespaceBlock s name ms, h =>
      (List.mem_cons.mp h).elim (fun h => ⟨namespaceBlock s name ms, h⟩) (exists_of_mem_nodesAmong_trees ms)
  | interface s header ms, h =>
      (List.mem_cons.mp h).elim (fun h => ⟨interface s header ms, h⟩) (exists_of_mem_nodesAmong_trees ms)
  | other s kind ms, h =>
      (List.mem_cons.mp h).elim (fun h => ⟨other s kind ms, h⟩) (exists_of_mem_nodesAmong_trees ms)
  | usingDirective s, h => ⟨usingDirective s, List.mem_singleton.mp h⟩
  | method s signature, h => ⟨method s signature, List.mem_singleton.mp h⟩
  | property s signature, h => ⟨property s signature, List.mem_singleton.mp h⟩
  | error s what, h => ⟨error s what, List.mem_singleton.mp h⟩
  | missing start token, h => ⟨missing start token, List.mem_singleton.mp h⟩

theorem exists_of_mem_nodesAmong_trees {t : SyntaxTree (Option Node)} :
    ∀ ns : List Node, t ∈ SyntaxTree.nodesAmong (trees ns) → ∃ m, t = tree m
  | n :: ns, h => (List.mem_append.mp h).elim (exists_of_mem_nodes_tree n)
      (exists_of_mem_nodesAmong_trees ns)

end

/-- **Every mark tells the truth** in the syntax tree of a list of nodes. -/
theorem marked_root (ns : List Node) : (root ns).Marked := fun t ht => by
  rcases List.mem_cons.mp (SyntaxTree.nodes_eq (root ns) ▸ ht) with rfl | ht
  · have hroot : (root ns).isBroken = false := rfl
    have h := anyHasError_eq_false_iff ns
    rw [SyntaxTree.exists_isBroken_iff, SyntaxTree.nodes_eq, List.filter_cons_of_neg (by simp [hroot])]
    change anyHasError ns = true ↔ (SyntaxTree.nodesAmong (trees ns)).filter SyntaxTree.isBroken ≠ []
    rw [filter_nodesAmong_trees, Ne, List.map_eq_nil_iff, ← h, Bool.not_eq_false]
  · obtain ⟨m, rfl⟩ := exists_of_mem_nodesAmong_trees ns ht
    rw [SyntaxTree.exists_isBroken_iff, filter_nodes_tree, hasError_tree, Ne, List.map_eq_nil_iff,
      ← hasError_eq_false_iff, Bool.not_eq_false]

/-- **The search finds the first broken node.** -/
theorem firstError?_eq_head? (ns : List Node) : firstError? ns = (broken ns).head? := by
  have hfind : (root ns).descendants.find? SyntaxTree.isBroken = ((broken ns).map tree).head? := by
    rw [← List.head?_filter]
    exact congrArg List.head? (filter_nodesAmong_trees ns)
  rw [firstError?, SyntaxTree.firstError_eq_find? (marked_root ns), hfind]
  cases hbroken : broken ns with
  | nil =>
      rw [show (root ns).hasError = false from (anyHasError_eq_false_iff ns).mpr hbroken]
      rfl
  | cons n rest =>
      have herror : (root ns).hasError = true := by
        rw [← Bool.not_eq_false]
        exact fun h => by simp [(anyHasError_eq_false_iff ns).mp h] at hbroken
      rw [herror]
      exact value_tree n

theorem firstError?_eq_some_iff {ns : List Node} {n : Node} :
    firstError? ns = some n ↔ (root ns).hasError = true ∧ (root ns).firstError.value = some n := by
  rw [firstError?]
  split <;> simp [*]

theorem isBroken_of_firstError? {ns : List Node} {n : Node} (h : firstError? ns = some n) :
    n.isBroken = true :=
  isBroken_of_mem_broken ns (List.mem_of_head? (firstError?_eq_head? ns ▸ h))

end InteropStubs.Node
