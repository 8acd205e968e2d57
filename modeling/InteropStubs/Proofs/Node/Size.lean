import InteropStubs.Proofs.Node.Item

/-!
# Sizes in a body

In a body a declaration is cut off without any phrase: at its first semicolon, or behind its first braces with a
semicolon that touches them. An item is cut off there as a whole (`Node.Item.declarationSize_append`): a using
directive has no braces, though it may have an equals sign, and a namespace or an interface has its keyword in
front of its braces and no sign of a value.
-/

namespace InteropStubs

open Phrase Rule

namespace Tree

variable {ts : List Tree} {t : Tree} {b : Bracket} {m : String}

theorem Spelled.isText_eq_false (hts : Spelled ts) (ht : t ∈ ts) (hm : m ∈ Words.marks)
    (h : ¬ (Head.mark m).of t) : t.isText m = false := by
  cases t with
  | group => rfl
  | token t => exact Bool.eq_false_iff.mpr fun htext => h (hts.of_isText ht hm htext)

theorem isText_of_mark (h : (Head.mark m).of t) : t.isText m = true := by
  cases t with
  | token u =>
      obtain ⟨hkind, htext⟩ : u.kind = .mark ∧ u.text = m := h
      simp [isText, Token.isText, hkind, htext]
  | group => exact h.elim

theorem isGroup_eq_false (ht : t.isClosed = true) (h : ¬ (Head.group b).of t) : t.isGroup b = false := by
  rcases t with _ | ⟨b', opening, inner, _ | _⟩
  · rfl
  · exact beq_eq_false_iff_ne.mpr h
  · exact absurd ht Bool.false_ne_true

end Tree

/-! ### Where declarations end -/

namespace Run

variable {front rest after ts : List Tree} {e : Tree} {isBlock : Bool}

theorem isText_eq_false_of_ne {t : Token} {m : String} (h : t.isText m = true) {other : String} (hne : m ≠ other) :
    t.isText other = false := by
  simp only [Token.isText, Bool.and_eq_true, beq_iff_eq] at h
  simp [Token.isText, h.2, hne]

theorem throughSemicolon_append (hfront : ∀ t ∈ front, t.isText ";" = false) (he : e.isText ";" = true) :
    throughSemicolon (front ++ e :: rest) = front.length + 1 := by
  induction front with
  | nil => rw [List.nil_append, throughSemicolon, if_pos he]; rfl
  | cons t front ih =>
      obtain ⟨ht, hfront⟩ := List.forall_mem_cons.mp hfront
      rw [List.cons_append, throughSemicolon, ht, if_neg Bool.false_ne_true, ih hfront]
      rfl

/-- A declaration without braces ends at its first semicolon, whether it has a value or not. -/
theorem declarationSize_semicolon (hfront : ∀ t ∈ front, t.isText ";" = false ∧ t.isGroup .curly = false)
    (he : e.isText ";" = true) : declarationSize isBlock (front ++ e :: rest) = front.length + 1 := by
  induction front generalizing isBlock with
  | nil => rw [List.nil_append, declarationSize, if_pos he]; rfl
  | cons t front ih =>
      obtain ⟨⟨htext, hgroup⟩, hfront⟩ := List.forall_mem_cons.mp hfront
      rw [List.cons_append, declarationSize, htext, hgroup, if_neg Bool.false_ne_true, if_neg Bool.false_ne_true]
      split
      · rw [throughSemicolon_append (fun u hu => (hfront u hu).1) he]
        rfl
      · rw [ih hfront]
        rfl

/-- Whether the end of a declaration is looked for behind a tree. -/
def isPassed (t : Tree) : Bool :=
  !t.isGroup .curly && [";", "=", "=>"].all fun m => !t.isText m

/-- The end of a declaration is looked for behind what is passed. -/
theorem declarationSize_append (hfront : ∀ t ∈ front, isPassed t = true) :
    declarationSize isBlock (front ++ ts) =
      front.length + declarationSize (isBlock || front.any isBlockKeyword) ts := by
  induction front generalizing isBlock with
  | nil => simp
  | cons t front ih =>
      obtain ⟨ht, hfront⟩ := List.forall_mem_cons.mp hfront
      obtain ⟨hgroup, hsemicolon, hequals, harrow⟩ : t.isGroup .curly = false ∧ t.isText ";" = false ∧
          t.isText "=" = false ∧ t.isText "=>" = false := by
        simpa [isPassed] using ht
      rw [List.cons_append, declarationSize, hgroup, hsemicolon, hequals, harrow, if_neg Bool.false_ne_true,
        if_neg Bool.false_ne_true, Bool.or_self, if_neg Bool.false_ne_true, ih hfront, List.any_cons,
        Bool.or_assoc, List.length_cons]
      omega

/-- What follows a declaration does not go on with it. -/
theorem behindBody_eq_zero (hrest : Tree.Parted rest) : behindBody isBlock rest = 0 := by
  cases rest with
  | nil => rfl
  | cons t rest =>
      obtain ⟨hsemicolon, hequals⟩ := hrest t rfl
      rw [behindBody, hequals, hsemicolon, Bool.and_false, Bool.false_and]
      rfl

/-- Behind the body of a block, a semicolon that touches it is taken. -/
theorem behindBody_append (hafter : behindTouching after = []) (hrest : Tree.Parted rest) :
    behindBody true (after ++ rest) = after.length := by
  rcases after with _ | ⟨t | _, after⟩
  · exact behindBody_eq_zero hrest
  · rw [behindTouching_token] at hafter
    split at hafter
    · next ht =>
      obtain ⟨htext, htight⟩ := Bool.and_eq_true_iff.mp ht
      have hequals : t.isText "=" = false := by
        simp only [Token.isText, Bool.and_eq_true, beq_iff_eq] at htext
        simp [Token.isText, htext.2]
      obtain rfl := hafter
      simp [behindBody, Tree.isText, Tree.head, hequals, htext, htight]
    · exact absurd hafter (List.cons_ne_nil _ _)
  · exact absurd hafter (List.cons_ne_nil _ _)

/-- The end of a block. -/
theorem declarationSize_seal (he : ∃ h ∈ sealHeads, h.of e) (hafter : behindSeal e after = [])
    (hrest : Tree.Parted rest) : declarationSize true (e :: after ++ rest) = (e :: after).length := by
  obtain ⟨h, hh, he⟩ := he
  rw [List.cons_append, declarationSize, List.length_cons]
  obtain rfl | rfl : h = .mark ";" ∨ h = .group .curly := by simpa [sealHeads] using hh
  · cases e with
    | token t =>
        obtain rfl : after = [] := hafter
        have ht : Tree.isText ";" (.token t) = true := by
          obtain ⟨hkind, htext⟩ : t.kind = .mark ∧ t.text = ";" := he
          simp [Tree.isText, Token.isText, hkind, htext]
        rw [if_pos ht]
        rfl
    | group => exact he.elim
  · rcases e with t | ⟨b, opening, inner, closing | place⟩
    · exact he.elim
    · obtain rfl : b = .curly := he
      simp [Tree.isText, Tree.isGroup, behindBody_append hafter hrest]
    · exact he.elim

end Run

/-- A tree that may end no declaration is passed. -/
theorem isPassed_of_plain {run : List Tree} {t : Tree} (hclosed : Tree.areClosed run = true)
    (hspelled : Tree.Spelled run) (ht : t ∈ run) (hplain : ∀ h ∈ plainHeads, ¬ h.of t) : Run.isPassed t = true := by
  have htext {m : String} (hm : m ∈ [";", "=", "=>"]) : t.isText m = false := by
    have hmarks : ∀ m ∈ [";", "=", "=>"], m ∈ Words.marks ∧ .mark m ∈ plainHeads := by decide
    exact hspelled.isText_eq_false ht (hmarks m hm).1 (hplain _ (hmarks m hm).2)
  have hgroup : t.isGroup .curly = false :=
    Tree.isGroup_eq_false (Tree.areClosed_iff.mp hclosed t ht) (hplain _ (by decide))
  simp [Run.isPassed, htext, hgroup]

/-! ### What is passed -/

namespace Phrase

variable {fuel : Nat} {p : Phrase} {run rest mid : List Tree}

/-- What a phrase takes that overlooks the ends of declarations is passed. -/
theorem exists_passed (hp : ∀ h ∈ plainHeads, p.overlooks typeRules h = true) (hclosed : Tree.areClosed run = true)
    (hspelled : Tree.Spelled run) (hl : Leaves fuel p run mid) :
    ∃ front, run = front ++ mid ∧ ∀ t ∈ front, Run.isPassed t = true := by
  obtain ⟨front, rfl, hfront⟩ := exists_front_of_overlooks hl (List.Subset.refl _) hp
  exact ⟨front, rfl, fun t ht => isPassed_of_plain hclosed hspelled (List.mem_append_left _ ht) fun h hh => hfront h hh t ht⟩

end Phrase

/-! ### Items -/

namespace Node

variable {fuel : Nat} {scope : Scope} {run rest mid : List Tree}

/-- The size of a using directive in a body. -/
theorem declarationSize_usingDirective (h : (usingDirectiveBut (usingKeywords scope)).fits run = true)
    (hclosed : Tree.areClosed run = true) (hspelled : Tree.Spelled run) :
    Run.declarationSize false (run ++ rest) = run.length := by
  obtain ⟨left, hdirective, hend⟩ := leaves_andThen.mp (leaves_nil_iff.mpr (List.contains_iff_mem.mp h))
  obtain ⟨t, rfl, ht⟩ := leaves_one.mp hend
  have he : Tree.isText ";" (.token t) = true := ht
  obtain ⟨front, rfl, hfront⟩ := exists_front_of_overlooks hdirective (List.subset_append_left sealHeads _)
    (by clear h hdirective; cases scope <;> decide)
  rw [List.append_assoc, List.singleton_append, Run.declarationSize_semicolon (fun u hu => ?_) he, List.length_append]
  · rfl
  · have hmem := List.mem_append_left [Tree.token t] hu
    exact ⟨hspelled.isText_eq_false hmem (by decide) (hfront _ (by decide) u hu),
      Tree.isGroup_eq_false (Tree.areClosed_iff.mp hclosed u hmem) (hfront _ (by decide) u hu)⟩

/-- The keyword of a namespace or interface. -/
theorem exists_keyword (h : Leaves fuel blockStart run mid) :
    ∃ front t, run = front ++ t :: mid ∧ Run.isBlockKeyword t = true := by
  have hkeyword {t : Token} {m : String} (hm : m ∈ "namespace" :: Words.typeDeclarations) (ht : t.isText m = true) :
      Run.isBlockKeyword (.token t) = true := List.any_eq_true.mpr ⟨m, hm, ht⟩
  rcases leaves_orElse.mp h with h | h
  · obtain ⟨t, rfl, ht⟩ := leaves_one.mp h
    exact ⟨[], _, rfl, hkeyword (by decide) ht⟩
  · obtain ⟨us, hdecorations, hword⟩ := leaves_andThen.mp h
    obtain ⟨t, rfl, ht⟩ := leaves_one.mp hword
    obtain ⟨front, rfl⟩ := hdecorations.suffix
    exact ⟨front, _, rfl, hkeyword (by decide) ht⟩

/-- The size of a namespace or interface in a body. -/
theorem declarationSize_block {q : Phrase} (hq : Terminated plainHeads q) (hl : Leaves fuel q run [])
    (hstart : Leaves fuel blockStart run mid) (hclosed : Tree.areClosed run = true) (hspelled : Tree.Spelled run)
    (hrest : Tree.Parted rest) : Run.declarationSize false (run ++ rest) = run.length := by
  have hending := hq.ending (List.Subset.refl _) hspelled hl
  generalize hnil : ([] : List Tree) = none at hending
  obtain ⟨hfront, ⟨h, hh, he⟩, after⟩ := hending
  rename_i front e
  have hpassed : ∀ t ∈ front, Run.isPassed t = true := fun t ht =>
    isPassed_of_plain hclosed hspelled (List.mem_append_left _ ht) fun h hh => hfront h hh t ht
  -- the keyword is in front of the end, which the beginning of a block overlooks
  have hoverlooks : ∀ h ∈ sealHeads, blockStart.overlooks typeRules h = true := by decide
  have hany : front.any Run.isBlockKeyword = true := by
    obtain ⟨behind, rfl, -⟩ := hstart.change_behind
      (overlookedBy_typeRules (List.mem_append_left _ hh)) (hoverlooks h hh) he
    obtain ⟨before, t, heq, ht⟩ := exists_keyword hstart
    rw [← List.cons_append, ← List.append_assoc] at heq
    rw [List.append_cancel_right heq]
    simp [ht]
  rw [List.append_assoc, Run.declarationSize_append hpassed, hany, Bool.or_true,
    Run.declarationSize_seal ⟨h, hh, he⟩ hnil.symm hrest, List.length_append]

/-- **The size of an item in a body.** -/
theorem Item.declarationSize_append (h : Item run) (hclosed : Tree.areClosed run = true) (hspelled : Tree.Spelled run)
    (hrest : Tree.Parted rest) : Run.declarationSize false (run ++ rest) = run.length := by
  cases h with
  | usingDirective h =>
      have hfits : (usingDirectiveBut (usingKeywords .file)).fits run = true := h
      exact declarationSize_usingDirective hfits hclosed hspelled
  | @block mid hfits hstart =>
      obtain ⟨q, -, hterminated, hl⟩ := exists_terminated_of_block hfits hstart
      exact declarationSize_block hterminated hl hstart hclosed hspelled hrest

end Node

end InteropStubs
