import InteropStubs.Proofs.Node.Header
import InteropStubs.Proofs.Node.Item

/-!
# Which declaration a run is

A run is looked at as one declaration after the other, and the first that fits counts. A run that is divided as a
member of a body is nothing else (`Node.declaration?_of_typed`), and neither is one that begins as a namespace or an
interface (`Node.usingDirective?_of_blockStart`, `Node.namespaceBlock_of_interface`).
-/

namespace InteropStubs.Node

open Phrase Rule

variable {fuel : Nat} {scope : Scope} {run us type rest : List Tree} {n m : Node}

/-! ### Phrases that fit -/

theorem leaves_of_fits {p : Phrase} (hfuel : Tree.ruleDepth run ≤ fuel) (h : p.fits run = true) : Leaves fuel p run [] :=
  (leaves_iff_of_le (Nat.le_refl _) hfuel).mp (leaves_nil_iff.mpr (List.contains_iff_mem.mp h))

theorem fits_of_leaves {p : Phrase} (hfuel : Tree.ruleDepth run ≤ fuel) (h : Leaves fuel p run []) : p.fits run = true :=
  List.contains_iff_mem.mpr (leaves_nil_iff.mp ((leaves_iff_of_le (Nat.le_refl _) hfuel).mpr h))

theorem exists_first {p q : Phrase} (h : Leaves fuel (p ++ q) run rest) : ∃ mid, Leaves fuel p run mid :=
  (leaves_andThen.mp h).imp fun _ => And.left

/-- What begins with three more parts behind it. -/
theorem exists_first_of_three {p q r s : Phrase} (h : Leaves fuel (p ++ q ++ r ++ s) run rest) :
    ∃ mid, Leaves fuel p run mid := by
  obtain ⟨_, h⟩ := exists_first h
  obtain ⟨_, h⟩ := exists_first h
  exact exists_first h

/-! ### Members -/

/-- What the type declarations begin with. -/
theorem exists_typeKeyword {k : Kind × Phrase} (hk : k ∈ typeKinds) (hl : Leaves fuel k.2 run rest) :
    ∃ left, Leaves fuel (decorations ++ typeKeyword) run left := by
  have hword {w : String} (hw : w ∈ Words.typeDeclarations) (h : ∃ left, Leaves fuel (decorations ++ the w) run left) :
      ∃ left, Leaves fuel (decorations ++ typeKeyword) run left := by
    obtain ⟨left, h⟩ := h
    obtain ⟨mid, hdecorations, h⟩ := leaves_andThen.mp h
    exact ⟨left, leaves_andThen.mpr ⟨mid, hdecorations, leaves_orElse.mpr (.inl (leaves_oneOf_of_the hw h))⟩⟩
  simp only [typeKinds, List.mem_cons, List.not_mem_nil, or_false] at hk
  rcases hk with rfl | rfl | rfl | rfl | rfl
  · exact hword (by decide) (exists_first_of_three hl)
  · obtain ⟨left, h⟩ := exists_first_of_three hl
    obtain ⟨mid, h, hstruct⟩ := leaves_andThen.mp h
    obtain ⟨mid', hdecorations, href⟩ := leaves_andThen.mp h
    rcases leaves_optional.mp href with href | rfl
    · exact ⟨left, leaves_andThen.mpr ⟨mid', hdecorations,
        leaves_orElse.mpr (.inr (leaves_orElse.mpr (.inl (leaves_andThen.mpr ⟨mid, href, hstruct⟩))))⟩⟩
    · exact hword (by decide) ⟨left, leaves_andThen.mpr ⟨_, hdecorations, hstruct⟩⟩
  · exact hword (by decide) (exists_first_of_three hl)
  · exact hword (by decide) (exists_first_of_three hl)
  · obtain ⟨_, h⟩ := exists_first_of_three hl
    obtain ⟨_, h⟩ := exists_first h
    obtain ⟨left, h⟩ := exists_first h
    obtain ⟨mid, hdecorations, h⟩ := leaves_andThen.mp (leaves_assoc.mp h)
    exact ⟨left, leaves_andThen.mpr ⟨mid, hdecorations, leaves_orElse.mpr (.inr (leaves_orElse.mpr (.inr h)))⟩⟩

/-- In front of a member stands nothing that a directive or namespace begins with. -/
theorem not_leaves_of_memberDecorations (hl : Leaves fuel memberDecorations run type) (left : List Tree) :
    ¬ Leaves fuel (oneOf ["namespace", "using"] <|> the "global" ++ the "using") run left := by
  obtain ⟨us, hl, -⟩ := leaves_andThen.mp hl
  obtain ⟨vs, habsent, -⟩ := leaves_andThen.mp hl
  exact (leaves_absent.mp habsent).2 left

theorem not_usingDirective_of_memberDecorations (hl : Leaves fuel memberDecorations run type) (words : List String) :
    ¬ Leaves fuel (usingDirectiveBut words) run rest := by
  intro husing
  obtain ⟨_, h⟩ := exists_first husing
  rcases leaves_orElse.mp h with h | h
  · obtain ⟨_, h⟩ := exists_first h
    exact not_leaves_of_memberDecorations hl _ (leaves_orElse.mpr (.inr h))
  · obtain ⟨_, h⟩ := exists_first h
    exact not_leaves_of_memberDecorations hl _ (leaves_orElse.mpr (.inl (leaves_oneOf_of_the (by decide) h)))

theorem usingDirective?_eq_none (hfuel : Tree.ruleDepth run ≤ fuel)
    (h : ¬ Leaves fuel (usingDirectiveBut (usingKeywords scope)) run []) : usingDirective? scope run = none := by
  rw [usingDirective?_eq, if_neg fun hfits => h (leaves_of_fits hfuel hfits)]

theorem not_conditional_of_token {t : Token} (ht : .token t ∈ run) (opening : Token) (inner : List Tree)
    (closing : Closing) : run ≠ [.group .conditional opening inner closing] := by
  rintro rfl
  simp at ht

/-- **A run of which the type of a member is known** is looked at as a member. -/
theorem declaration?_of_typed {read : Scope → List Tree → List Node} (hfuel : Tree.ruleDepth run ≤ fuel)
    (hrun : Tree.Spelled run) (hl : Leaves fuel memberDecorations run type) (htyped : IsTyped fuel type) :
    declaration? read .body run = member? run := by
  have hnone {left : List Tree} : ¬ Leaves fuel (decorations ++ typeKeyword) run left :=
    htyped.not_leaves_type hrun hl
  obtain ⟨_, htype, n, us, rfl, -⟩ := htyped.exists_type
  have hmem : .token n ∈ run := (htype.suffix.trans hl.suffix).subset List.mem_cons_self
  have hnamespace : Reader.whole? Reader.namespaceBlock run = none := Reader.Fails.whole? fun _ _ hmem => by
    obtain ⟨_, mid, hword, -⟩ := Reader.mem_bind.mp hmem
    have hword := (Reader.mem_skip_of_le hfuel).mp hword
    exact not_leaves_of_memberDecorations hl _ (leaves_orElse.mpr (.inl (leaves_oneOf_of_the (by decide) hword)))
  have hinterface : Reader.whole? Reader.interface run = none := Reader.Fails.whole? fun _ _ hmem => by
    obtain ⟨_, left, hstart, -⟩ := Reader.mem_bind.mp hmem
    obtain ⟨mid, hdecorations, hword⟩ := leaves_andThen.mp ((Reader.mem_skip_of_le hfuel).mp hstart)
    exact hnone (leaves_andThen.mpr ⟨mid, hdecorations, leaves_orElse.mpr (.inl (leaves_oneOf_of_the (by decide) hword))⟩)
  have hkinds : kindOf? typeKinds run = none := by
    rw [kindOf?, Option.map_eq_none_iff, List.find?_eq_none]
    intro k hk hfits
    obtain ⟨_, hleft⟩ := exists_typeKeyword hk (leaves_of_fits hfuel hfits)
    exact hnone hleft
  rw [declaration?_eq (not_conditional_of_token hmem),
    usingDirective?_eq_none hfuel (not_usingDirective_of_memberDecorations hl _)]
  simp [sharedDeclaration?, hnamespace, hinterface, hkinds]

theorem member?_eq (run : List Tree) : member? run =
    ((Reader.whole? Reader.method run).map (.method (spanOf run))).or
      (((Reader.whole? Reader.property run).map (.property (spanOf run))).or
        ((kindOf? memberKinds run).map fun kind => .other (spanOf run) kind [])) := by
  unfold member?
  cases Reader.whole? Reader.method run <;> cases Reader.whole? Reader.property run <;> rfl

/-! ### Namespaces and interfaces -/

theorem usingDirective?_of_blockStart (hfuel : Tree.ruleDepth run ≤ fuel) (h : Leaves fuel blockStart run rest) :
    usingDirective? scope run = none :=
  usingDirective?_eq_none hfuel fun husing => not_leaves_blockStart husing h

/-- A run that begins as a namespace or an interface is what it is looked at as, if nothing else may stand there. -/
theorem declaration?_of_blockStart {read : Scope → List Tree → List Node} (hfuel : Tree.ruleDepth run ≤ fuel)
    (h : Leaves fuel blockStart run rest) (hn : sharedDeclaration? (read .body) run = some n)
    (hplace : scope = .file → (fileItemWith (anyGroup .curly)).fits run = true) :
    declaration? read scope run = some n := by
  obtain ⟨t, ht⟩ := token_mem_of_blockStart h
  rw [declaration?_eq (not_conditional_of_token ht), usingDirective?_of_blockStart hfuel h]
  cases scope with
  | body => simp [hn]
  | file => simp [hplace rfl, hn]

/-- Whatever goes into stubs of such a run is what it is looked at as. -/
theorem eq_of_blockStart {read : Scope → List Tree → List Node} (hfuel : Tree.ruleDepth run ≤ fuel)
    (h : Leaves fuel blockStart run rest) (hn : sharedDeclaration? (read .body) run = some n)
    (hm : declaration? read scope run = some m) (hstubbed : m.isStubbed = true) : m = n := by
  obtain ⟨t, ht⟩ := token_mem_of_blockStart h
  rw [declaration?_eq (not_conditional_of_token ht), usingDirective?_of_blockStart hfuel h] at hm
  cases scope with
  | body => simpa [hn, eq_comm] using hm
  | file =>
      by_cases hfits : (fileItemWith (anyGroup .curly)).fits run = true
      · simpa [hfits, hn, eq_comm] using hm
      · simp only [hfits, Option.orElse_eq_or, Option.none_or] at hm
        obtain ⟨kind, -, rfl⟩ := Option.map_eq_some_iff.mp hm
        exact absurd hstubbed Bool.false_ne_true

/-- What is a declaration of a file is an item of it. -/
theorem fits_of_blockStart {read : Scope → List Tree → List Node} (hfuel : Tree.ruleDepth run ≤ fuel)
    (h : Leaves fuel blockStart run rest) (hm : declaration? read .file run = some m) :
    (fileItemWith (anyGroup .curly)).fits run = true := by
  obtain ⟨t, ht⟩ := token_mem_of_blockStart h
  rw [declaration?_eq (not_conditional_of_token ht), usingDirective?_of_blockStart hfuel h] at hm
  by_contra hfits
  simp only [hfits, Option.orElse_eq_or, Option.none_or] at hm
  obtain ⟨kind, hkind, -⟩ := Option.map_eq_some_iff.mp hm
  obtain ⟨k, hk, -⟩ := Option.map_eq_some_iff.mp hkind
  have halternative : ∀ k ∈ fileKinds, k.2 ∈ (fileItemWith (anyGroup .curly)).alternatives := by
    intro k hk
    simp only [fileKinds, List.mem_cons, List.not_mem_nil, or_false] at hk
    rcases hk with rfl | rfl | rfl | rfl
    · exact .tail _ (.tail _ (.tail _ (.head _)))
    · exact .tail _ (.head _)
    · exact .head _
    · exact .tail _ (.tail _ (.tail _ (.tail _ (.tail _ (.tail _ (.head _))))))
  have hkindFits : k.2.fits run = true := List.find?_some (p := fun k : Kind × Phrase => k.2.fits run) hk
  exact hfits (fits_of_leaves (Nat.le_refl _) (leaves_alternatives.mpr
    ⟨k.2, halternative k (List.mem_of_find?_eq_some hk), leaves_of_fits (Nat.le_refl _) hkindFits⟩))

/-- An interface is no namespace. -/
theorem namespaceBlock_of_interface (hfuel : Tree.ruleDepth run ≤ fuel) (hrun : Tree.Spelled run)
    (h : Leaves fuel (decorations ++ the "interface") run rest) : Reader.whole? Reader.namespaceBlock run = none :=
  Reader.Fails.whole? fun _ _ hmem => by
    obtain ⟨_, mid, hword, -⟩ := Reader.mem_bind.mp hmem
    obtain ⟨head, hhead, hb⟩ := startsIn_word "namespace" _ _ hrun ((Reader.mem_skip_of_le hfuel).mp hword)
    have hrefuses : ∀ h ∈ [Head.word "namespace", .mark "namespace"],
        (decorations ++ the "interface").refuses h = true := by decide
    exact not_leaves hb (hrefuses head hhead) h

end InteropStubs.Node
