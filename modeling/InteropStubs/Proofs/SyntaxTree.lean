import InteropStubs.SyntaxTree

/-!
# The search for the first error

`SyntaxTree.firstError` only ever goes down, and what it reports is still the first fault in
preorder, a node before its children. What makes up for the missing way back is that the marks tell
the truth about whole subtrees (`SyntaxTree.Marked`): a child without a mark has no fault at any
depth, and one with a mark has one.

* `SyntaxTree.firstError_eq_find?`: the search is the search for a fault in preorder below the root.
* `SyntaxTree.isBroken_firstError`: what is reported of a tree with a mark is a fault.
-/

namespace InteropStubs.SyntaxTree

variable {α : Type}

mutual

/-- A tree and the trees below it, in preorder. -/
def nodes : SyntaxTree α → List (SyntaxTree α)
  | node v e m h ts => node v e m h ts :: nodesAmong ts

/-- The nodes of some trees, tree by tree. -/
def nodesAmong : List (SyntaxTree α) → List (SyntaxTree α)
  | [] => []
  | t :: ts => nodes t ++ nodesAmong ts

end

/-- The trees below a tree, in preorder. -/
def descendants (t : SyntaxTree α) : List (SyntaxTree α) :=
  nodesAmong t.children

theorem nodes_eq (t : SyntaxTree α) : nodes t = t :: t.descendants := by
  cases t
  rfl

theorem firstError_eq (t : SyntaxTree α) : t.firstError = (firstErrorAmong? t.children).getD t := by
  cases t
  rfl

/-- The marks of a tree tell the truth: they stand just where there is a fault at or below a node. -/
def Marked (t : SyntaxTree α) : Prop :=
  ∀ n ∈ t.nodes, n.hasError = true ↔ ∃ b ∈ n.nodes, b.isBroken = true

theorem exists_isBroken_iff {ts : List (SyntaxTree α)} :
    (∃ b ∈ ts, b.isBroken = true) ↔ ts.filter isBroken ≠ [] := by
  simp [List.filter_eq_nil_iff]

theorem Marked.hasError_iff {t : SyntaxTree α} (ht : t.Marked) :
    t.hasError = true ↔ t.isBroken = true ∨ ∃ b ∈ t.descendants, b.isBroken = true := by
  rw [ht t (nodes_eq t ▸ List.mem_cons_self), nodes_eq]
  simp only [List.mem_cons, exists_eq_or_imp]

theorem mem_nodesAmong {n : SyntaxTree α} {ts : List (SyntaxTree α)} :
    n ∈ nodesAmong ts ↔ ∃ t ∈ ts, n ∈ t.nodes := by
  induction ts with
  | nil => simp [nodesAmong]
  | cons t ts ih => simp [nodesAmong, ih]

theorem Marked.children {t c : SyntaxTree α} (ht : t.Marked) (hc : c ∈ t.children) : c.Marked :=
  fun n hn => ht n <| by
    rw [nodes_eq]
    exact List.mem_cons_of_mem t (mem_nodesAmong.mpr ⟨c, hc, hn⟩)

mutual

/-- Below a node the search goes to the first fault in preorder. -/
theorem firstErrorAmong?_children :
    ∀ {t : SyntaxTree α}, t.Marked → firstErrorAmong? t.children = t.descendants.find? isBroken
  | node .., ht => firstErrorAmong?_eq_find? fun _ hc => ht.children hc

/-- Among trees that stand side by side the search goes to the first fault in preorder. -/
theorem firstErrorAmong?_eq_find? : ∀ {ts : List (SyntaxTree α)},
    (∀ t ∈ ts, t.Marked) → firstErrorAmong? ts = (nodesAmong ts).find? isBroken
  | [], _ => rfl
  | t :: ts, hts => by
      have ht := hts t List.mem_cons_self
      have hbelow := firstErrorAmong?_children ht
      have hrest := firstErrorAmong?_eq_find? fun u hu => hts u (List.mem_cons_of_mem t hu)
      rw [firstErrorAmong?, nodesAmong, nodes_eq, List.cons_append, List.find?_cons, List.find?_append]
      cases hbroken : t.isBroken with
      | true => rfl
      | false =>
          cases hfind : t.descendants.find? isBroken with
          | none =>
              -- no fault in the whole subtree, and so no mark to follow
              have hmark : t.hasError = false := by
                rw [← Bool.not_eq_true, ht.hasError_iff, hbroken]
                simpa using hfind
              simpa [hmark] using hrest
          | some b =>
              have hmark : t.hasError = true :=
                ht.hasError_iff.mpr <| .inr ⟨b, List.mem_of_find?_eq_some hfind, List.find?_some hfind⟩
              simp [hmark, firstError_eq, hbelow, hfind]

end

/-- **The search finds the first fault** below the root. -/
theorem firstError_eq_find? {t : SyntaxTree α} (ht : t.Marked) :
    t.firstError = (t.descendants.find? isBroken).getD t := by
  rw [firstError_eq, firstErrorAmong?_children ht]

theorem find?_descendants_of_exists {t : SyntaxTree α} (ht : t.Marked)
    (h : ∃ b ∈ t.descendants, b.isBroken = true) :
    t.descendants.find? isBroken = some t.firstError := by
  rw [firstError_eq_find? ht]
  cases hfind : t.descendants.find? isBroken with
  | none =>
      obtain ⟨b, hb, hbroken⟩ := h
      exact absurd hbroken (List.find?_eq_none.mp hfind b hb)
  | some b => rfl

theorem firstError_eq_self {t : SyntaxTree α} (ht : t.Marked)
    (h : ∀ b ∈ t.descendants, b.isBroken = false) : t.firstError = t := by
  have hnone : t.descendants.find? isBroken = none :=
    List.find?_eq_none.mpr fun b hb => by simp [h b hb]
  rw [firstError_eq_find? ht, hnone]
  rfl

theorem isBroken_firstError {t : SyntaxTree α} (ht : t.Marked) (h : t.hasError = true) :
    t.firstError.isBroken = true := by
  by_cases hbelow : ∃ b ∈ t.descendants, b.isBroken = true
  · exact List.find?_some (find?_descendants_of_exists ht hbelow)
  · rw [firstError_eq_self ht fun b hb => Bool.not_eq_true _ ▸ fun hb' => hbelow ⟨b, hb, hb'⟩]
    exact (ht.hasError_iff.mp h).resolve_right hbelow

end InteropStubs.SyntaxTree
