import InteropStubs.Node.OfTrees
import InteropStubs.Proofs.Outline.Layout
import InteropStubs.Proofs.Tree.WellNested

/-!
# Nesting what is written

Forms *nest* if no word or mark in them is a bracket, their groups are closed by brackets, and
semicolons stand between braces only (`Form.nests`). Planted forms that nest are well nested trees
without a fault (`Layout.wellNested_plant`, `Layout.fault?_plant`), and outlines nest (`nests_items`).
-/

namespace InteropStubs.Outline

/-- The brackets of groups that are written. -/
def brackets : List String :=
  ["(", ")", "[", "]", openBrace, closeBrace]

mutual

/-- Whether a form nests; the flag says whether it may be a semicolon. -/
def Form.nests (semicolons : Bool) : Form → Bool
  | .leaf l =>
    (l.kind == .word || l.kind == .mark) && !brackets.contains l.text
      && (semicolons || l.text != ";")
  | .group _ b inner => [.round, .square, .curly].contains b && nestsAll (b == .curly) inner

/-- Whether some forms nest. -/
def nestsAll (semicolons : Bool) : List Form → Bool
  | [] => true
  | f :: fs => f.nests semicolons && nestsAll semicolons fs

end

@[simp] theorem nestsAll_append (semicolons : Bool) (fs gs : List Form) :
    nestsAll semicolons (fs ++ gs) = (nestsAll semicolons fs && nestsAll semicolons gs) := by
  induction fs with
  | nil => rfl
  | cons f fs ih => simp [nestsAll, ih, Bool.and_assoc]

theorem nestsAll_flatMap {α : Type} {semicolons : Bool} {forms : α → List Form} {xs : List α}
    (h : ∀ x ∈ xs, nestsAll semicolons (forms x) = true) :
    nestsAll semicolons (xs.flatMap forms) = true := by
  induction xs with
  | nil => rfl
  | cons x xs ih =>
      rw [List.flatMap_cons, nestsAll_append, h x List.mem_cons_self,
        ih fun y hy => h y (List.mem_cons_of_mem _ hy), Bool.and_self]

/-- A group in braces. -/
theorem nestsAll_braces {inner : List Form} (h : nestsAll true inner = true) :
    nestsAll true [.group false .curly inner] = true := by
  have hgroup : nestsAll true [.group false .curly inner] =
      ((Form.group false .curly []).nests true && nestsAll true inner) := by
    simp [nestsAll, Form.nests]
  rw [hgroup, h]
  rfl

/-- A list between commas is nested. -/
theorem nestsAll_list {semicolons : Bool} {fs : List (List Form)}
    (h : ∀ f ∈ fs, nestsAll semicolons f = true) : nestsAll semicolons (list fs) = true := by
  have hcomma : nestsAll semicolons [.mark ","] = true := by cases semicolons <;> decide
  cases fs with
  | nil => rfl
  | cons f fs =>
      rw [list, nestsAll_append, h f List.mem_cons_self, Bool.true_and]
      refine nestsAll_flatMap fun g hg => ?_
      rw [← List.singleton_append, nestsAll_append, hcomma, h g (List.mem_cons_of_mem _ hg),
        Bool.and_self]

/-! ### Outlines nest -/

theorem Identifier.nests (x : Identifier) (tight semicolons : Bool) :
    Form.nests semicolons (.leaf ⟨tight, .word, x.text⟩) = true := by
  have hmarks : x.text ∉ ";" :: brackets := by
    have hall : ∀ m ∈ ";" :: brackets, Words.mayBeName m = false := by decide
    intro hmem
    exact absurd x.mayBeName (by simp [hall _ hmem])
  rw [List.mem_cons, not_or] at hmarks
  simp [Form.nests, hmarks]

theorem nests_name (n : Name) (semicolons : Bool) : nestsAll semicolons n.forms = true := by
  have hpoint : Form.nests semicolons (.nextMark ".") = true := by cases semicolons <;> decide
  rw [Name.forms, nestsAll, Form.word, n.first.nests, Bool.true_and]
  refine nestsAll_flatMap fun x _ => ?_
  rw [nestsAll, nestsAll, nestsAll, hpoint, Form.nextWord, x.nests]
  rfl

/-- A type is nested. -/
theorem nests_type (t : ValueType) (semicolons : Bool) : nestsAll semicolons t.forms = true := by
  obtain ⟨plain, suffix⟩ := t
  have hplain : nestsAll semicolons plain.forms = true := by
    cases plain with
    | named n => exact nests_name n semicolons
    | builtIn w h =>
        have hall : ∀ w ∈ builtIn, ∀ semicolons, nestsAll semicolons [.word w] = true := by decide
        exact hall w h semicolons
  have hsuffix : nestsAll semicolons suffix.forms = true := by
    cases suffix <;> cases semicolons <;> decide
  rw [ValueType.forms, nestsAll_append, hplain, hsuffix, Bool.and_self]

/-- A parameter list is nested. -/
theorem nests_parameterList (ps : List Parameter) : (parameterList ps).nests true = true := by
  rw [parameterList, Form.nests, nestsAll_list]
  · rfl
  · intro f hf
    obtain ⟨p, -, rfl⟩ := List.mem_map.mp hf
    rw [Parameter.forms, nestsAll_append, nests_type, nestsAll, Form.word, p.name.nests]
    rfl

/-- A member is nested. -/
theorem nests_member (m : Member) : nestsAll true m.forms = true := by
  cases m with
  | method returns name ps =>
      have hreturns : nestsAll true returns.forms = true := by
        cases returns with
        | nothing => decide
        | value t => exact nests_type t true
      rw [Member.forms, nestsAll_append, hreturns, nestsAll, Form.word, name.nests, nestsAll,
        nests_parameterList]
      rfl
  | property type name first more =>
      have haccessors : nestsAll true ((first :: more).flatMap Accessor.forms) = true :=
        nestsAll_flatMap fun a _ => by cases a <;> decide
      rw [Member.forms, nestsAll_append, nests_type, nestsAll, Form.word, name.nests,
        nestsAll_braces haccessors]
      rfl

/-- The bases of an interface are nested. -/
theorem nests_baseList (bases : List Name) : nestsAll true (baseList bases) = true := by
  cases bases with
  | nil => rfl
  | cons n ns =>
      rw [baseList, nestsAll, nestsAll_list]
      · decide
      · intro f hf
        obtain ⟨m, -, rfl⟩ := List.mem_map.mp hf
        exact nests_name m true
      · exact nofun

mutual

/-- An item is nested. -/
theorem nests_item : ∀ x : Item, nestsAll true x.forms = true
  | .usingDirective n => by
      rw [Item.forms, nestsAll, nestsAll_append, nests_name]
      decide
  | .namespaceBlock n items => by
      rw [Item.forms, nestsAll, nestsAll_append, nests_name, nestsAll_braces (nests_items items)]
      decide
  | .interface name bases members => by
      have hmembers : nestsAll true (members.flatMap Member.forms) = true :=
        nestsAll_flatMap fun m _ => nests_member m
      rw [Item.forms, nestsAll, nestsAll, Form.word, Form.word, name.nests, nestsAll_append,
        nests_baseList, nestsAll_braces hmembers]
      decide

/-- **Outlines nest.** -/
theorem nests_items : ∀ xs : List Item, nestsAll true (itemForms xs) = true
  | [] => rfl
  | x :: xs => by rw [itemForms, nestsAll_append, nests_item x, nests_items xs, Bool.and_self]

end

/-! ### Planted forms -/

namespace Layout

variable {L : Layout} {start : Nat → Nat}

/-- A word opens and closes no bracket, and most marks do not. -/
theorem bracketOpenedBy?_token (L : Layout) (start : Nat → Nat) {l : Leaf} (i : Nat)
    (hkind : l.kind = .word ∨ l.kind = .mark) (hl : l.text ∉ brackets) :
    Tree.bracketOpenedBy? (L.token start i l) = none ∧
      Tree.bracketClosedBy? (L.token start i l) = none := by
  have hne : ∀ m ∈ brackets, (L.token start i l).isText m = false := fun m hm => by
    have : l.text ≠ m := fun heq => hl (heq ▸ hm)
    simp [Token.isText, token, this]
  simp only [brackets, List.forall_mem_cons, List.not_mem_nil, false_implies, implies_true,
    and_true] at hne
  have hdirective (name : String) : (L.token start i l).isDirective name = false := by
    rcases hkind with h | h <;> simp [Token.isDirective, token, h]
  have hopening : (L.token start i l).kind ≠ .openingQuote := by
    rcases hkind with h | h <;> simp [token, h]
  have hclosing : (L.token start i l).kind ≠ .closingQuote := by
    rcases hkind with h | h <;> simp [token, h]
  simp [Tree.bracketOpenedBy?, Tree.bracketClosedBy?, hne, hdirective, hopening, hclosing]

/-- Brackets are opened and closed by their tokens. -/
theorem bracket_tokens (L : Layout) (start : Nat → Nat) {b : Bracket}
    (hb : b ∈ [.round, .square, .curly]) (tight : Bool) (i j : Nat) :
    Tree.bracketOpenedBy? (L.token start i ⟨tight, .mark, b.opener⟩) = some b ∧
      Tree.bracketOpenedBy? (L.token start j ⟨tight, .mark, b.closer⟩) = none ∧
      Tree.bracketClosedBy? (L.token start j ⟨tight, .mark, b.closer⟩) = some b := by
  simp only [List.mem_cons, List.not_mem_nil, or_false] at hb
  rcases hb with rfl | rfl | rfl
  all_goals
    simp [Tree.bracketOpenedBy?, Tree.bracketClosedBy?, Token.isText, Token.isDirective, token,
      Bracket.opener, Bracket.closer]

mutual

/-- A planted form is well nested. -/
theorem wellNested_plantOne (semicolons : Bool) (i : Nat) : ∀ f : Form, f.nests semicolons = true →
    Tree.wellNestedIn semicolons (plantOne L start i f) = true
  | .leaf l, h => by
      simp only [Form.nests, Bool.and_eq_true, Bool.or_eq_true, beq_iff_eq, Bool.not_eq_true',
        List.contains_eq_mem, decide_eq_false_iff_not, bne_iff_ne] at h
      obtain ⟨⟨hkind, hbracket⟩, hsemicolon⟩ := h
      obtain ⟨hopen, hclose⟩ := bracketOpenedBy?_token L start i hkind hbracket
      rw [plantOne, Tree.wellNestedIn, hopen, hclose]
      rcases hsemicolon with h | h
      · simp [h]
      · simp [Token.isText, h]
  | .group tight b inner, h => by
      simp only [Form.nests, Bool.and_eq_true, List.contains_eq_mem, decide_eq_true_eq] at h
      obtain ⟨hb, hinner⟩ := h
      obtain ⟨hopen, hnone, hclose⟩ := bracket_tokens L start hb tight i
        (i + 1 + (leavesAll inner).length)
      rw [plantOne, Tree.wellNestedIn, hopen, hnone, hclose]
      have hflag : (b != .round && b != .square) = (b == .curly) := by
        simp only [List.mem_cons, List.not_mem_nil, or_false] at hb
        rcases hb with rfl | rfl | rfl <;> rfl
      simp [hflag, wellNested_plant _ (i + 1) inner hinner]

/-- **Planted forms are well nested.** -/
theorem wellNested_plant (semicolons : Bool) (i : Nat) : ∀ fs : List Form,
    nestsAll semicolons fs = true → Tree.wellNested semicolons (plant L start i fs) = true
  | [], _ => rfl
  | f :: fs, h => by
      simp only [nestsAll, Bool.and_eq_true] at h
      rw [plant_cons, Tree.wellNested, wellNested_plantOne semicolons i f h.1,
        wellNested_plant semicolons _ fs h.2, Bool.and_self]

end

mutual

/-- A planted form has no fault. -/
theorem fault?_plantOne (semicolons : Bool) (i : Nat) : ∀ f : Form, f.nests semicolons = true →
    Node.opensBrace (plantOne L start i f) = false ∧ Node.faultIn? (plantOne L start i f) = none
  | .leaf l, h => by
      simp only [Form.nests, Bool.and_eq_true, Bool.or_eq_true, beq_iff_eq] at h
      refine ⟨rfl, ?_⟩
      rcases h.1.1 with hkind | hkind <;> simp [plantOne, token, hkind, Node.faultIn?]
  | .group tight b inner, h => by
      simp only [Form.nests, Bool.and_eq_true] at h
      obtain ⟨hopen, hfault⟩ := fault?_plant _ (i + 1) inner h.2
      constructor
      · cases b <;> exact hopen
      · rw [plantOne, Node.faultIn?.eq_def]
        simp [hfault]

/-- **Planted forms have no fault.** -/
theorem fault?_plant (semicolons : Bool) (i : Nat) : ∀ fs : List Form,
    nestsAll semicolons fs = true →
      Node.anyOpensBrace (plant L start i fs) = false ∧ Node.fault? (plant L start i fs) = none
  | [], _ => ⟨rfl, rfl⟩
  | f :: fs, h => by
      simp only [nestsAll, Bool.and_eq_true] at h
      obtain ⟨hopen, hfault⟩ := fault?_plantOne semicolons i f h.1
      obtain ⟨hopens, hfaults⟩ := fault?_plant semicolons (i + f.leaves.length) fs h.2
      rw [plant_cons, Node.anyOpensBrace, Node.fault?, hopen, hfault, hopens, hfaults]
      exact ⟨rfl, rfl⟩

end

end Layout

end InteropStubs.Outline
