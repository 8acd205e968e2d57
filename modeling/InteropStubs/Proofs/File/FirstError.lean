import InteropStubs.File
import InteropStubs.Proofs.Node.Broken

/-!
# The error that is reported

Whatever the shape of a syntax tree, if its marks tell the truth then the search for an error ends at
the first fault below the root, or at the root where there is none below
(`SyntaxTree.firstError_isFirst`). The marks of the tree of a file always tell the truth, and so a
text that is refused is refused for a node that is broken.
-/

namespace InteropStubs

/-- A text is refused for the node that the search ends at, and this node is broken. -/
theorem File.parse_eq_error_iff {source : String} {d : Diagnostic} :
    File.parse source = .error d ↔
      (Node.root (File.read source).nodes).hasError = true ∧
      ∃ n, (Node.root (File.read source).nodes).firstError.value = some n ∧ n.isBroken = true ∧
        d = n.cause.at ((File.read source).locationOf n) := by
  constructor
  · rw [File.parse]
    split
    · next n hn =>
      intro h
      obtain ⟨hmark, hvalue⟩ := Node.firstError?_eq_some_iff.mp hn
      exact ⟨hmark, n, hvalue, Node.isBroken_of_firstError? hn, (Except.error.inj h).symm⟩
    · exact nofun
  · rintro ⟨hmark, n, hvalue, -, rfl⟩
    rw [File.parse, Node.firstError?_eq_some_iff.mpr ⟨hmark, hvalue⟩]

/-- **The error that is reported is the first one.** Let the marks of a tree tell the truth, and let
the root have a mark. If there is a fault below the root, the search ends at the first of them in
preorder. Else it ends at the root, which is the only fault of the tree. So it always ends at a
fault. The marks of the tree of a file tell the truth, and a text is refused just where the root has a
mark, for the broken node that the search ends at. -/
theorem SyntaxTree.firstError_isFirst :
    (∀ {α : Type} (t : SyntaxTree α), t.Marked → t.hasError = true →
      ((∃ b ∈ t.descendants, b.isBroken = true) →
        ∃ before after, t.descendants = before ++ t.firstError :: after ∧
          ∀ b ∈ before, b.isBroken = false) ∧
      ((∀ b ∈ t.descendants, b.isBroken = false) →
        t.firstError = t ∧ t.nodes.filter isBroken = [t]) ∧
      t.firstError.isBroken = true) ∧
    ∀ source, (Node.root (File.read source).nodes).Marked ∧
      ∀ d, File.parse source = .error d ↔
        (Node.root (File.read source).nodes).hasError = true ∧
        ∃ n, (Node.root (File.read source).nodes).firstError.value = some n ∧ n.isBroken = true ∧
          d = n.cause.at ((File.read source).locationOf n) := by
  refine ⟨fun t ht hmark => ?_, fun source => ⟨Node.marked_root _, fun _ => File.parse_eq_error_iff⟩⟩
  have hfault := isBroken_firstError ht hmark
  refine ⟨fun hbelow => ?_, fun hbelow => ?_, hfault⟩
  · obtain ⟨-, before, after, hsplit, hbefore⟩ :=
      List.find?_eq_some_iff_append.mp (find?_descendants_of_exists ht hbelow)
    exact ⟨before, after, hsplit, fun b hb => by simpa using hbefore b hb⟩
  · have hself := firstError_eq_self ht hbelow
    have hnone : t.descendants.filter isBroken = [] :=
      List.filter_eq_nil_iff.mpr fun b hb => by simp [hbelow b hb]
    rw [hself] at hfault
    exact ⟨hself, by rw [nodes_eq, List.filter_cons_of_pos hfault, hnone]⟩

/-- A fault that has a fault below it, and another one to its right. -/
theorem SyntaxTree.firstError_isFirst_nested :
    let missing : SyntaxTree Nat := .node 3 false true true []
    let error : SyntaxTree Nat := .node 2 true false true [missing]
    let t : SyntaxTree Nat :=
      .node 0 false false true [.node 1 false false false [], error, .node 4 false false true [missing]]
    t.Marked ∧ t.hasError = true ∧ t.firstError = error ∧ t.firstError.isBroken = true ∧
      ∃ before after, t.descendants = before ++ t.firstError :: after ∧
        ∀ b ∈ before, b.isBroken = false := by
  intro missing error t
  have ht : t.Marked := by
    unfold Marked
    decide
  obtain ⟨hbelow, -, hfault⟩ := firstError_isFirst.1 t ht rfl
  exact ⟨ht, rfl, rfl, hfault, hbelow ⟨error, by simp [t, error, descendants, nodesAmong, nodes, children], rfl⟩⟩

end InteropStubs
