import InteropStubs.Proofs.Node.Cut
import InteropStubs.Proofs.Node.Decorated
import InteropStubs.Proofs.Node.Namespace

/-!
# Cutting decorated declarations

However a declaration is decorated, it is cut off in front of all that may follow (`Node.Severed`): its end is behind
its first semicolon or braces, and what is added in front of that has neither.
-/

namespace InteropStubs

open Phrase Rule

variable {fuel : Nat} {p : Phrase} {ts run rest more : List Tree} {isBlock : Bool}

namespace Run

/-- A value goes through its semicolon. -/
theorem throughSemicolon_value {m : String} (hts : Tree.Spelled ts)
    (hl : Leaves fuel (the m ++ rule .expression ++ the ";") ts []) (more : List Tree) :
    ∃ t us, ts = .token t :: us ∧ t.isText m = true ∧ throughSemicolon (us ++ more) = us.length := by
  obtain ⟨us, hmark, hvalue⟩ := leaves_andThen.mp (leaves_assoc.mp hl)
  obtain ⟨t, rfl, ht⟩ := leaves_one.mp hmark
  have hus : Tree.Spelled us := hts.of_subset (List.subset_cons_self _ _)
  obtain ⟨front, e, rfl, hfront, he⟩ := exists_semicolon hus expressionRules_avoidedBy (by decide) hvalue
  have hplain : ∀ t ∈ front, t.isText ";" = false := fun t ht =>
    hus.isText_eq_false (List.mem_append_left _ ht) (by decide) (hfront t ht)
  have hsemicolon : e.isText ";" = true := Tree.isText_of_mark he
  refine ⟨t, _, rfl, ht, ?_⟩
  rw [List.append_assoc, List.singleton_append, throughSemicolon_append hplain hsemicolon, List.length_append]
  rfl

/-- A value behind an arrow is the end of a declaration. -/
theorem declarationSize_arrow (hts : Tree.Spelled ts) (hl : Leaves fuel (the "=>" ++ rule .expression ++ the ";") ts []) :
    declarationSize isBlock (ts ++ more) = ts.length := by
  obtain ⟨t, us, rfl, ht, hsize⟩ := throughSemicolon_value hts hl more
  have hsemicolon : t.isText ";" = false := isText_eq_false_of_ne ht (by decide)
  simp [declarationSize, Tree.isText, Tree.isGroup, ht, hsemicolon, hsize]

/-- Braces with a value behind them, or without one, are the end of a declaration. -/
theorem declarationSize_braces {opening : Token} {inner : List Tree} {closing : Closing} (hts : Tree.Spelled ts)
    (hl : Leaves fuel (Phrase.optional initialValue) ts []) (hmore : Tree.Parted more) :
    declarationSize isBlock (.group .curly opening inner closing :: (ts ++ more)) = ts.length + 1 := by
  have hbehind : behindBody isBlock (ts ++ more) = ts.length := by
    rcases leaves_optional.mp hl with hl | rfl
    · obtain ⟨t, us, rfl, ht, hsize⟩ := throughSemicolon_value hts hl more
      simp [behindBody, Tree.isText, ht, hsize]
    · exact behindBody_eq_zero hmore
  simp [declarationSize, Tree.isText, Tree.isGroup, hbehind]

/-- The body of a method is the end of a declaration. -/
theorem declarationSize_body (hts : Tree.Spelled ts) (hl : Leaves fuel (rule .body) ts []) (hmore : Tree.Parted more) :
    declarationSize isBlock (ts ++ more) = ts.length := by
  obtain ⟨less, rfl, hbody⟩ := exists_of_leaves_rule hl
  rcases leaves_orElse.mp hbody with h | h
  · obtain ⟨t, rfl, ht⟩ := leaves_one.mp h
    have hsemicolon : t.isText ";" = true := ht
    simp [declarationSize, Tree.isText, hsemicolon]
  · rcases leaves_orElse.mp h with h | h
    · obtain ⟨_, rfl, hblock⟩ := exists_of_leaves_rule h
      obtain ⟨opening, inner, closing, rfl, -⟩ := leaves_within.mp hblock
      have hnone : Leaves 0 (Phrase.optional initialValue) [] [] := leaves_optional.mpr (.inr rfl)
      exact declarationSize_braces (fun _ hu => absurd hu List.not_mem_nil) hnone hmore
    · exact declarationSize_arrow hts h

end Run

/-! ### Members -/

theorem MethodParts.declarationSize_append {m : MethodParts} (hclosed : Tree.areClosed m.trees = true)
    (hspelled : Tree.Spelled m.trees) (hmore : Tree.Parted more) :
    Run.declarationSize false (m.trees ++ more) = m.trees.length := by
  obtain ⟨hhead, hgenerics, hdemands, hbody⟩ := m.leaves (Nat.le_refl _)
  have hlist : Leaves (Tree.ruleDepth m.trees) (anyGroup .round) (m.list :: (m.demands ++ m.body)) (m.demands ++ m.body) :=
    leaves_opens.mpr ⟨_, _, _, _, rfl, leaves_empty.mpr rfl⟩
  have hheader := leaves_andThen.mpr ⟨_, leaves_andThen.mpr ⟨_, leaves_andThen.mpr ⟨_, hhead.leaves, hgenerics⟩, hlist⟩,
    hdemands⟩
  obtain ⟨front, heq, hpassed⟩ := exists_passed (by decide) hclosed hspelled hheader
  have hbodySpelled : Tree.Spelled m.body := hspelled.of_subset hheader.suffix.subset
  rw [heq, List.append_assoc, Run.declarationSize_append hpassed, Run.declarationSize_body hbodySpelled hbody hmore,
    List.length_append]

theorem PropertyParts.declarationSize_append {p : PropertyParts} (hclosed : Tree.areClosed p.trees = true)
    (hspelled : Tree.Spelled p.trees) (hmore : Tree.Parted more) :
    Run.declarationSize false (p.trees ++ more) = p.trees.length := by
  obtain ⟨hhead, hrest⟩ := p.leaves (Nat.le_refl _)
  have hheader : Leaves (Tree.ruleDepth p.trees) (memberDecorations ++ memberType ++ Rule.owner ++ memberName) p.trees
      p.rest := hhead.leaves
  obtain ⟨front, heq, hpassed⟩ := exists_passed (by decide) hclosed hspelled hheader
  have hrestSpelled : Tree.Spelled p.rest := hspelled.of_subset hheader.suffix.subset
  have hsize : ∀ isBlock, Run.declarationSize isBlock (p.rest ++ more) = p.rest.length := fun isBlock => by
    rcases leaves_orElse.mp hrest with h | h
    · obtain ⟨us, hbraces, hvalue⟩ := leaves_andThen.mp h
      obtain ⟨opening, inner, closing, hrest, -⟩ := leaves_within.mp hbraces
      rw [hrest] at hrestSpelled ⊢
      exact Run.declarationSize_braces (hrestSpelled.of_subset (List.subset_cons_self _ _)) hvalue hmore
    · exact Run.declarationSize_arrow hrestSpelled h
  rw [heq, List.append_assoc, Run.declarationSize_append hpassed, hsize, List.length_append]

/-! ### Beginnings -/

namespace Node

open InteropStubs.Tree (Moved Adds)

variable {scope : Scope} {run' us us' front front' : List Tree} {t : Tree}

theorem isAlone_eq_false_of_isText {u : Token} {m : String} (hu : u.isText m = true)
    (hm : m ∉ [")", "]", closeBrace]) : Run.isAlone (.token u) = false := by
  obtain ⟨kind, gap, text, start, trail⟩ := u
  obtain ⟨hkind, rfl⟩ : (kind = .word ∨ kind = .mark) ∧ text = m := by
    simpa [Token.isText] using hu
  rcases hkind with rfl | rfl
  · rfl
  · simpa [Run.isAlone] using hm

theorem isAlone_of_moved {ts' : List Tree} (h : Moved ts ts') (hts' : ts' = t :: us') (halone : Run.isAlone t = true) :
    ∃ u us, ts = u :: us ∧ Run.isAlone u = true := by
  obtain ⟨φ, -, rfl⟩ := h
  obtain ⟨u, us, rfl, rfl, -⟩ := List.map_eq_cons_iff.mp hts'
  exact ⟨u, us, rfl, by rwa [Run.isAlone_relabel] at halone⟩

/-- What comes first where something is added: a tree that is kept, an attribute list or a word. -/
theorem first_of_adds (h : Adds front front') (hfront' : front' = t :: us') :
    (∃ u us, front = u :: us ∧ Moved [u] [t]) ∨
      (∃ opening inner closing, t = .group .square opening inner (.present closing) ∧ Tree.isTargeted inner = false) ∨
        ∃ w, t = .token w ∧ w.kind = .word := by
  cases h with
  | nil => exact absurd hfront' nofun
  | keep ht h =>
      obtain ⟨rfl, -⟩ := List.cons.inj hfront'
      exact .inl ⟨_, _, rfl, ht⟩
  | attributes hinner h =>
      obtain ⟨rfl, -⟩ := List.cons.inj hfront'
      exact .inr (.inl ⟨_, _, _, rfl, hinner⟩)
  | word hword h =>
      obtain ⟨rfl, -⟩ := List.cons.inj hfront'
      exact .inr (.inr ⟨_, rfl, hword⟩)

theorem isAlone_of_adds (h : Adds front front') (hfront' : front' = t :: us') (halone : Run.isAlone t = true) :
    ∃ u us, front = u :: us ∧ Run.isAlone u = true := by
  rcases first_of_adds h hfront' with ⟨u, us, rfl, ht⟩ | ⟨opening, inner, closing, rfl, -⟩ | ⟨w, rfl, hword⟩
  · obtain ⟨u, us', heq, hu⟩ := isAlone_of_moved ht rfl halone
    obtain ⟨rfl, -⟩ := List.cons.inj heq
    exact ⟨_, _, rfl, hu⟩
  · exact absurd halone Bool.false_ne_true
  · obtain ⟨kind, _, _, _, _⟩ := w
    obtain rfl : kind = .word := hword
    exact absurd halone Bool.false_ne_true

/-- What is added to a run is not cut off alone. -/
theorem isAlone_eq_false (hfront : Adds front front')
    (hrun : ∀ t us, front ++ rest = t :: us → Run.isAlone t = true → us = []) (hrest : 1 < rest.length)
    (hmore : ∀ t us', more = t :: us' → Run.isAlone t = true → ∃ u us, rest = u :: us ∧ Run.isAlone u = true)
    (hrun' : front' ++ more = t :: us') : Run.isAlone t = false := by
  rw [Bool.eq_false_iff]
  intro halone
  cases front' with
  | nil =>
      obtain ⟨u, us, rfl, hu⟩ := hmore t us' hrun' halone
      cases hfront
      obtain rfl := hrun u us rfl hu
      exact absurd hrest (by simp)
  | cons t' front' =>
      obtain ⟨rfl, -⟩ := List.cons.inj hrun'
      obtain ⟨u, us, rfl, hu⟩ := isAlone_of_adds hfront rfl halone
      obtain ⟨-, rfl⟩ := List.append_eq_nil_iff.mp (hrun u _ rfl hu)
      exact absurd hrest (by simp)

/-- Nor is a member in front of which something is added. -/
theorem isAlone_eq_false_of_type {type type' : List Tree} (hfront : Adds front front') (htype : Moved type type')
    (hne : type ≠ []) (hrest : rest ≠ [])
    (hrun : ∀ t us, front ++ (type ++ rest) = t :: us → Run.isAlone t = true → us = [])
    (hrun' : front' ++ (type' ++ more) = t :: us') : Run.isAlone t = false := by
  refine isAlone_eq_false hfront hrun ?_ (fun t us' heq halone => ?_) hrun'
  · have htypeLength := List.length_pos_iff.mpr hne
    have hrestLength := List.length_pos_iff.mpr hrest
    rw [List.length_append]
    omega
  · cases type' with
    | nil =>
        obtain ⟨φ, -, hmap⟩ := htype
        exact absurd (List.map_eq_nil_iff.mp hmap.symm) hne
    | cons t' type' =>
        obtain ⟨rfl, -⟩ := List.cons.inj heq
        obtain ⟨u, us, rfl, hu⟩ := isAlone_of_moved htype rfl halone
        exact ⟨u, us ++ rest, rfl, hu⟩

/-! ### Attributes of the whole program -/

/-- Whether a tree is an attribute list that is about the whole program. -/
def isGlobal : Tree → Bool
  | .group .square _ (.token w :: inner) (.present _) =>
    (TokenClass.anyOf globalTargets).holds w && Tree.isTargeted (.token w :: inner)
  | _ => false

theorem isTargeted_relabel (φ : Relabelling) (ts : List Tree) :
    Tree.isTargeted (ts.map (Tree.relabel φ)) = Tree.isTargeted ts := by
  rcases ts with _ | ⟨_ | _, _ | ⟨_ | _, _⟩⟩ <;> simp [Tree.isTargeted]

theorem isGlobal_relabel (φ : Relabelling) : ∀ t : Tree, isGlobal (t.relabel φ) = isGlobal t
  | .token _ => rfl
  | .group b _ [] closing | .group b _ (.group .. :: _) closing => by cases b <;> cases closing <;> rfl
  | .group b _ (.token w :: inner) (.absent _) => by cases b <;> rfl
  | .group b _ (.token w :: inner) (.present _) => by
      have htargeted := isTargeted_relabel φ (.token w :: inner)
      simp only [List.map_cons, Tree.relabel_token] at htargeted
      cases b <;> simp [Tree.relabel_group, Closing.relabel, isGlobal, htargeted]

theorem isGlobal_of_leaves (hl : Leaves fuel globalAttribute (t :: us) rest) : isGlobal t = true := by
  obtain ⟨opening, inner, closing, heq, hinner⟩ := leaves_within.mp hl
  obtain ⟨rfl, -⟩ := List.cons.inj heq
  obtain ⟨mid, hlist, -⟩ := leaves_andThen.mp hinner
  obtain ⟨mid', htarget, -⟩ := leaves_andThen.mp hlist
  obtain ⟨behind, hword, hcolon⟩ := leaves_andThen.mp htarget
  obtain ⟨w, rfl, hw⟩ := leaves_one.mp hword
  obtain ⟨c, rfl, hc⟩ := leaves_one.mp hcolon
  exact Bool.and_eq_true_iff.mpr ⟨hw, hc⟩

/-- No namespace or interface of a file begins with one. -/
theorem isGlobal_eq_false (hfits : (fileItemWith (anyGroup .curly)).fits (t :: us) = true)
    (hstart : Leaves (Tree.ruleDepth (t :: us)) blockStart (t :: us) rest) : isGlobal t = false := by
  rw [Bool.eq_false_iff]
  intro hglobal
  unfold isGlobal at hglobal
  split at hglobal
  · next opening w inner closing =>
    have hw := (Bool.and_eq_true_iff.mp hglobal).1
    have hb : (Head.group .square).Begins (.group .square opening (.token w :: inner) (.present closing) :: us) := rfl
    obtain ⟨q, hq, hl⟩ := leaves_alternatives.mp (leaves_of_fits (Nat.le_refl _) hfits)
    rw [Item.alternatives_fileItem] at hq
    simp only [List.mem_cons, List.not_mem_nil, or_false] at hq
    rcases hq with rfl | rfl | rfl | rfl | rfl | rfl | rfl
    · obtain ⟨_, _, _, heq, -⟩ := leaves_within.mp hl
      obtain ⟨-, rfl⟩ := List.cons.inj heq
      exact absurd (token_mem_of_blockStart hstart) (by simp)
    · exact not_leaves hb (by decide) hl
    · exact not_leaves hb (by decide) hl
    · exact not_leaves hb (by decide) hl
    · exact not_leaves hb (by decide) hl
    · obtain ⟨mid, hnone, -⟩ := leaves_andThen.mp hl
      obtain ⟨mid', hbracket, -⟩ := leaves_andThen.mp hnone
      have hword : Leaves (Tree.ruleDepth (Tree.group .square opening (.token w :: inner) (.present closing) :: us))
          (oneOf globalTargets) (.token w :: inner) inner := leaves_one.mpr ⟨w, rfl, hw⟩
      have hmore := leaves_oneOf_mono (List.subset_append_left _ Words.argumentStart) hword
      exact (leaves_absent.mp hbracket).2 us (leaves_opens.mpr ⟨_, _, _, _, rfl, hmore⟩)
    · exact not_leaves_fileStatement hstart hl
  · exact absurd hglobal Bool.false_ne_true

/-- **What is added** makes no declaration begin with one. -/
theorem isGlobal_of_adds (hfront : Adds front front') (hrun : ∀ u us, front ++ rest = u :: us → isGlobal u = false)
    {w : Token} (hrun' : front' ++ .token w :: more = t :: us') : isGlobal t = false := by
  cases front' with
  | nil =>
      obtain ⟨rfl, -⟩ := List.cons.inj hrun'
      rfl
  | cons t' front' =>
      obtain ⟨rfl, -⟩ := List.cons.inj hrun'
      rcases first_of_adds hfront rfl with ⟨u, us, rfl, φ, -, heq⟩ | ⟨opening, inner, closing, rfl, hinner⟩ | ⟨w, rfl, -⟩
      · obtain ⟨rfl, -⟩ := List.cons.inj heq
        rw [isGlobal_relabel]
        exact hrun u _ rfl
      · cases inner with
        | nil => rfl
        | cons u inner =>
            cases u with
            | group => rfl
            | token w => exact Bool.and_eq_false_iff.mpr (.inr hinner)
      · rfl

/-! ### Declarations -/

variable {depth : Nat} {skip : Nat} {read : Scope → List Tree → List Node} {n : Node} {runs runs' : List (List Tree)}

/-- **A directive, method or property** that is decorated otherwise is cut off as a whole. -/
theorem DecoratedSingle.severed (h : DecoratedSingle scope run run') (hcut : run ∈ Run.cut scope skip ts)
    (hrun : Tree.Spelled run) (hrun' : Tree.Spelled run') (hclosed' : Tree.areClosed run' = true)
    (hd : Node.declaration? read scope run' = some n) (hn : n.isStubbed = true) : Severed scope run' := by
  have hparted (hne : run' ≠ []) : ∀ rest, Tree.Parted (run' ++ rest) :=
    (stubs_of_declaration? hn hd).parted hne hrun'
  have halone : ∀ t us, run = t :: us → Run.isAlone t = true → us = [] := fun t us heq =>
    eq_nil_of_isAlone (heq ▸ hcut)
  -- A token that stands alone is a run by itself, which a method or property is not.
  cases h with
  | usingDirective h hmoved =>
      have hfits := fits_of_moved hmoved h
      obtain ⟨t, ht⟩ := token_mem_of_usingDirective hfits
      have hne : run' ≠ [] := List.ne_nil_of_mem ht
      refine .of_size hne (hparted hne) (fun t us heq ht => ?_)
        (fun rest _ => declarationSize_usingDirective hfits hclosed' hrun') fun hscope rest _ hrest hspelled => ?_
      · obtain ⟨u, vs, rfl, hu⟩ := isAlone_of_moved hmoved heq ht
        obtain rfl := halone u vs rfl hu
        obtain ⟨φ, -, rfl⟩ := hmoved
        exact (List.cons.inj heq).2.symm
      · subst hscope
        exact (Item.usingDirective hfits).eq_length_of_fileItemSize? (hrun'.append hspelled) hrest
  | @method m m' hfront htype hname hlist =>
      have hne : m'.trees ≠ [] := by simp [MethodParts.trees]
      refine .of_size hne (hparted hne) (fun t us heq ht => ?_)
        (fun rest hrest => MethodParts.declarationSize_append hclosed' hrun' hrest) (absurd · (by decide))
      have hfirst := isAlone_eq_false_of_type hfront htype (MethodParts.type_ne_nil hrun) (by simp) halone heq
      exact absurd ht (by simp [hfirst])
  | @property p p' hfront htype hname hrest =>
      have hne : p'.trees ≠ [] := by simp [PropertyParts.trees]
      refine .of_size hne (hparted hne) (fun t us heq ht => ?_)
        (fun rest hrest => PropertyParts.declarationSize_append hclosed' hrun' hrest) (absurd · (by decide))
      have hfirst := isAlone_eq_false_of_type hfront htype (PropertyParts.type_ne_nil hrun) (by simp) halone heq
      exact absurd ht (by simp [hfirst])

/-- What begins as a namespace or interface may follow other declarations. -/
theorem parted_of_blockStart (h : Leaves fuel blockStart run rest) (more : List Tree) : Tree.Parted (run ++ more) := by
  obtain ⟨t, ht⟩ := token_mem_of_blockStart h
  obtain ⟨u, us, rfl⟩ := List.exists_cons_of_ne_nil (List.ne_nil_of_mem ht)
  intro _ hu
  obtain rfl := Option.some.inj hu
  have hrefuses : ∀ m ∈ [";", "="], ∀ h ∈ [Head.word m, .mark m], blockStart.refuses h = true := by decide
  have hnone {m : String} (hm : m ∈ [";", "="]) : u.isText m = false := by
    cases u with
    | group => rfl
    | token u =>
        rw [Bool.eq_false_iff]
        intro hu
        obtain ⟨head, hhead, hb⟩ := begins_of_isText hu
        exact not_leaves hb (hrefuses m hm head hhead) h
  exact ⟨hnone (by decide), hnone (by decide)⟩

/-- Neither a namespace nor an interface is cut off alone, however it is decorated. -/
theorem DecoratedBlock.isAlone_eq_false (h : DecoratedBlock run run')
    (halone : ∀ t us, run = t :: us → Run.isAlone t = true → us = []) (hrun' : run' = t :: us') :
    Run.isAlone t = false := by
  cases h with
  | @namespaceBlock s s' hname =>
      obtain ⟨hword, -⟩ := s'.leaves (Nat.le_refl _)
      obtain ⟨_, htoken, hkeyword⟩ := leaves_one.mp hword
      obtain rfl := (List.cons.inj (htoken.symm.trans hrun')).1
      exact isAlone_eq_false_of_isText hkeyword (by decide)
  | @interface i i' hfront hname hmoved =>
      have hword : Run.isAlone (.token i'.word) = false :=
        isAlone_eq_false_of_isText (i'.leavesInTurn (Nat.le_refl _)).1 (by decide)
      exact Node.isAlone_eq_false hfront halone (by simp [InterfaceParts.behindName])
        (fun u vs heq hu => absurd hu (by simp [← (List.cons.inj heq).1, hword])) hrun'

theorem DecoratedBlock.isGlobal_eq_false (h : DecoratedBlock run run')
    (hrun : ∀ u us, run = u :: us → isGlobal u = false) (hrun' : run' = t :: us') : isGlobal t = false := by
  cases h with
  | @namespaceBlock s s' hname =>
      obtain ⟨rfl, -⟩ := List.cons.inj hrun'
      rfl
  | @interface i i' hfront hname hmoved => exact isGlobal_of_adds hfront hrun hrun'

theorem DecoratedBlock.exists_terminated (h : DecoratedBlock run run') :
    ∃ q, Terminated plainHeads q ∧ Leaves (Tree.ruleDepth run') q run' [] := by
  cases h with
  | @namespaceBlock s s' hname =>
      obtain ⟨hword, hnamed, hbody⟩ := s'.leaves (Nat.le_refl _)
      exact ⟨_, terminated_namespaceBlock, leaves_andThen.mpr ⟨_, leaves_andThen.mpr ⟨_, hword, hnamed⟩, hbody⟩⟩
  | @interface i i' hfront hname hmoved =>
      exact ⟨_, .andThen (by decide) (.andThen (by decide) terminated_typeEnd), (i'.leaves (Nat.le_refl _)).leaves⟩

/-- **A namespace or interface** that is decorated otherwise is cut off as a whole. -/
theorem DecoratedBlock.severed (h : DecoratedBlock run run') (hcut : run ∈ Run.cut scope skip ts)
    (hrun' : Tree.Spelled run') (hclosed' : Tree.areClosed run' = true)
    (hd : Node.declaration? read scope run = some n) : Severed scope run' := by
  obtain ⟨⟨mid, hstart⟩, mid', hstart'⟩ := h.begins
  obtain ⟨t, ht⟩ := token_mem_of_blockStart hstart'
  obtain ⟨q, hterminated, hl⟩ := h.exists_terminated
  have hending := (hterminated.ending (List.Subset.refl _) hrun' hl).mono (List.subset_append_left _ _)
  refine .of_size (List.ne_nil_of_mem ht) (parted_of_blockStart hstart') (fun t us heq ht => ?_)
    (fun rest hrest => declarationSize_block hterminated hl hstart' hclosed' hrun' hrest)
    fun hscope rest size hrest hspelled hsize => ?_
  · have hfirst := h.isAlone_eq_false (fun t us heq => eq_nil_of_isAlone (heq ▸ hcut)) heq
    exact absurd ht (by simp [hfirst])
  · subst hscope
    have hfits := fits_of_blockStart (Nat.le_refl _) hstart hd
    have hglobal : ∀ u us, run = u :: us → isGlobal u = false := by
      rintro u us rfl
      exact Node.isGlobal_eq_false hfits hstart
    refine eq_length_of_forall_eq (fun left => eq_of_fileItem hending hstart' (fun fuel left hleft => ?_)
      (hrun'.append hspelled) hrest) hsize
    obtain ⟨u, us, heq⟩ := List.exists_cons_of_ne_nil (List.ne_nil_of_mem ht)
    have hfirst := h.isGlobal_eq_false hglobal heq
    rw [heq] at hleft
    exact absurd (isGlobal_of_leaves hleft) (by simp [hfirst])

end Node

end InteropStubs
