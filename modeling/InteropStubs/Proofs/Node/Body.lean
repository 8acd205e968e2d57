import InteropStubs.Proofs.Node.Cut
import InteropStubs.Proofs.Phrase.Stray

/-!
# Items in a body

The items of a file may stand in the body of a namespace as well, and there they become the same nodes
(`Node.ofTreesWithin_body`): they are cut off alike, a using directive is one where fewer words are keywords, and
namespaces and interfaces are read in one way everywhere.

* `Node.stray_of_isStubbed`: no brace among the items closes nothing, so braces may stand around them.
-/

namespace InteropStubs

open Phrase Rule

/-! ### Fewer keywords -/

namespace Phrase

variable {fuel : Nat} {p p' q q' : Phrase} {words words' : List String}

/-- Whatever the one phrase leaves, the other one leaves as well. -/
def Looser (fuel : Nat) (p p' : Phrase) : Prop :=
  ∀ ts rest, Leaves fuel p ts rest → Leaves fuel p' ts rest

namespace Looser

theorem refl (p : Phrase) : Looser fuel p p := fun _ _ hl => hl

theorem andThen (hp : Looser fuel p p') (hq : Looser fuel q q') : Looser fuel (p ++ q) (p' ++ q') := by
  intro ts rest hl
  obtain ⟨mid, hfirst, hsecond⟩ := leaves_andThen.mp hl
  exact leaves_andThen.mpr ⟨mid, hp ts mid hfirst, hq mid rest hsecond⟩

theorem orElse (hp : Looser fuel p p') (hq : Looser fuel q q') : Looser fuel (p <|> q) (p' <|> q') := by
  intro ts rest hl
  exact leaves_orElse.mpr ((leaves_orElse.mp hl).imp (hp ts rest) (hq ts rest))

theorem nameBut (h : words' ⊆ words) : Looser fuel (nameBut words) (nameBut words') := by
  intro ts rest hl
  obtain ⟨t, rfl, ht⟩ := leaves_one.mp hl
  obtain ⟨hkind, hword⟩ : t.kind = .word ∧ t.text ∉ words := by simpa [TokenClass.holds] using ht
  have hword' : t.text ∉ words' := fun hmem => hword (h hmem)
  exact leaves_one.mpr ⟨t, rfl, by simp [TokenClass.holds, hkind, hword']⟩

theorem qualifiedName (h : words' ⊆ words) : Looser fuel (qualifiedNameBut words) (qualifiedNameBut words') := by
  have hname : Looser fuel (Phrase.nameBut words) (Phrase.nameBut words') := nameBut h
  have hfirst : Looser fuel (Phrase.nameBut words ++ the "::" ++ simpleName <|> simpleNameBut words)
      (Phrase.nameBut words' ++ the "::" ++ simpleName <|> simpleNameBut words') :=
    ((hname.andThen (.refl _)).andThen (.refl _)).orElse (hname.andThen (.refl _))
  exact hfirst.andThen (.refl _)

/-- **A using directive** is one where fewer words are keywords. -/
theorem usingDirective (h : words' ⊆ words) :
    Looser fuel (usingDirectiveBut words) (usingDirectiveBut words') := by
  have hnamed {words words' : List String} (h : words' ⊆ words) :
      Looser fuel (Phrase.nameBut words ++ the "=" ++ rule .type <|> qualifiedNameBut words)
        (Phrase.nameBut words' ++ the "=" ++ rule .type <|> qualifiedNameBut words') :=
    (((nameBut h).andThen (.refl _)).andThen (.refl _)).orElse (qualifiedName h)
  have hstatic : Looser fuel
      (the "static" ++ (the "unsafe" ++ qualifiedNameBut [] <|> qualifiedNameBut ("unsafe" :: words)))
      (the "static" ++ (the "unsafe" ++ qualifiedNameBut [] <|> qualifiedNameBut ("unsafe" :: words'))) :=
    (refl _).andThen ((refl _).orElse (qualifiedName (List.cons_subset_cons _ h)))
  have hpointers : Looser fuel (the "unsafe" ++ (Phrase.nameBut words ++ the "=" ++ rule .type <|> qualifiedNameBut words))
      (the "unsafe" ++ (Phrase.nameBut words' ++ the "=" ++ rule .type <|> qualifiedNameBut words')) :=
    (refl _).andThen (hnamed h)
  have hfixed := hnamed (List.cons_subset_cons "static" (List.cons_subset_cons "unsafe" h))
  have htarget := hstatic.orElse (hpointers.orElse hfixed)
  exact ((refl _).orElse ((refl _).andThen htarget)).andThen (.refl _)

end Looser

end Phrase

namespace Node

variable {depth : Nat} {run ts : List Tree} {n : Node}

/-! ### Items in a body -/

/-- **What goes into stubs of a file** is the same in a body. -/
theorem declaration?_body {read : Scope → List Tree → List Node} (hn : n.isStubbed = true)
    (h : declaration? read .file run = some n) : declaration? read .body run = some n := by
  have hrun : ∀ opening inner closing, run ≠ [.group .conditional opening inner closing] := by
    rintro opening inner closing rfl
    obtain ⟨-, h⟩ := Option.ite_none_right_eq_some.mp h
    obtain rfl := Option.some.inj h
    exact absurd hn Bool.false_ne_true
  rw [declaration?_eq hrun, Option.orElse_eq_or, usingDirective?_eq] at h ⊢
  -- A body asks for a looser form of directive first. Each directive of a file has it, and no block does.
  rcases Option.or_eq_some_iff.mp h with h | ⟨-, h⟩
  · obtain ⟨hfits, h⟩ := Option.ite_none_right_eq_some.mp h
    have hl : Leaves (Tree.ruleDepth run) (usingDirectiveBut usingWords) run [] :=
      leaves_nil_iff.mpr (List.contains_iff_mem.mp hfits)
    have hloose : (usingDirectiveBut []).fits run = true :=
      List.contains_iff_mem.mpr (leaves_nil_iff.mp (Looser.usingDirective (List.nil_subset _) _ _ hl))
    rw [usingKeywords, if_pos hloose, h]
    rfl
  · simp only [Option.orElse_eq_or] at h ⊢
    rcases Option.or_eq_some_iff.mp h with h | ⟨-, h⟩
    · have hshared := (Option.ite_none_right_eq_some.mp h).2
      obtain ⟨mid, hstart⟩ := exists_blockStart hn hshared
      rw [if_neg, hshared]
      · rfl
      · intro hfits
        exact not_leaves_blockStart (leaves_nil_iff.mpr (List.contains_iff_mem.mp hfits)) hstart
    · obtain ⟨kind, -, rfl⟩ := Option.map_eq_some_iff.mp h
      exact absurd hn Bool.false_ne_true

/-- **The nodes of items** are the same in a file and in a body. -/
theorem ofTreesWithin_body (hstubbed : ∀ k ∈ all (ofTreesWithin (depth + 1) .file ts), k.isStubbed = true)
    (hspelled : Tree.Spelled ts) : ofTreesWithin (depth + 1) .body ts = ofTreesWithin (depth + 1) .file ts := by
  obtain ⟨heq, hruns⟩ := ofTreesWithin_eq_map hstubbed
  have hcut : Tree.runs .body ts = Tree.runs .file ts := by
    have hsevered : ∀ run ∈ Tree.runs .file ts, Severed .body run := fun run hrun =>
      (severed_of_mem_runs .body hstubbed hspelled hrun).2
    have hall : Tree.Spelled ((Tree.runs .file ts).flatten ++ []) := by rwa [flatten_runs, List.append_nil]
    have hnil : Tree.runs .body [] = [] := rfl
    have hparted : Tree.Parted [] := nofun
    have hflatten := runs_flatten_append hsevered hparted hall
    rwa [flatten_runs, List.append_nil, hnil, List.append_nil] at hflatten
  have hnode : ∀ run ∈ Tree.runs .file ts,
      ofRun (ofTreesWithin depth) .body run = ofRun (ofTreesWithin depth) .file run := by
    intro run hrun
    have herror := hasError_of_isStubbed _ (hruns run hrun)
    have hself := hruns run hrun _ (allIn_eq _ ▸ List.mem_cons_self)
    exact ofRun_of_declaration? (fault?_of_ofRun herror)
      (declaration?_body hself (declaration?_of_ofRun herror))
  have hbody : ofTreesWithin (depth + 1) .body ts =
      (Tree.runs .file ts).map (ofRun (ofTreesWithin depth) .body) := by
    rw [ofTreesWithin, hcut]
    refine ofRuns_eq_map fun run hrun => ?_
    rw [hnode run hrun]
    exact hruns run hrun _ (allIn_eq _ ▸ List.mem_cons_self)
  rw [hbody, heq]
  exact List.map_congr_left hnode

/-! ### What stands in braces -/

theorem Item.stray_eq_false (h : Item run) (hspelled : Tree.Spelled run) : Tree.stray .curly run = false := by
  have htidy : ∀ q ∈ (fileItemWith (anyGroup .curly)).alternatives, q.isTidy = true := by decide
  obtain ⟨q, hq, -, -, -, -, hl⟩ := h.exists_terminated
  exact hl.stray_eq_false (htidy q hq) hspelled

/-- **No brace among items closes nothing.** -/
theorem stray_of_isStubbed (hstubbed : ∀ k ∈ all (ofTreesWithin (depth + 1) .file ts), k.isStubbed = true)
    (hspelled : Tree.Spelled ts) : Tree.stray .curly ts = false := by
  rw [Tree.stray_eq_any, List.any_eq_false]
  intro t ht
  rw [← flatten_runs .file ts] at ht
  obtain ⟨run, hrun, ht⟩ := List.mem_flatten.mp ht
  have hrunSpelled : Tree.Spelled run := hspelled.of_subset fun u hu =>
    flatten_runs .file ts ▸ List.mem_flatten.mpr ⟨run, hrun, hu⟩
  have hstray := (severed_of_mem_runs .file hstubbed hspelled hrun).1.stray_eq_false hrunSpelled
  rw [Tree.stray_eq_any, List.any_eq_false] at hstray
  exact hstray t ht

end Node

end InteropStubs
