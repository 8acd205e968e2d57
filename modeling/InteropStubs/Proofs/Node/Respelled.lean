import InteropStubs.Proofs.Node.Alike
import InteropStubs.Proofs.Phrase.Settled
import InteropStubs.Proofs.Token.Pieces
import InteropStubs.Proofs.Tree.Orderly

/-!
# Declarations that are spelled again

The tokens of a directive may stand elsewhere, and so may the name of a namespace, behind another keyword and in front of
other braces. What they nest to are the same runs decorated otherwise, without faults and in their places
(`Node.Respelled`).

* `Node.respelled_usingDirective`: a directive that is moved.
* `Node.respelled_namespaceBlock`: a namespace of which the name is moved, around what is spelled again for its body.
-/

namespace InteropStubs

open Phrase Rule

/-! ### Tokens that are spelled again -/

namespace Token

variable {cs : List Char} {ts us : List Token}

/-- **Tokens of a text that are spelled again** are relabelled, and the gaps behind the first one stay. -/
theorem exists_relabelling (h : List.Forall₂ Kin (headless ts) (headless us)) (hts : ts <:+: ofChars cs)
    (hfirst : ∀ t ∈ ts.head?, ∀ m ∈ touchy, t.kind = .mark → t.text ≠ m) :
    ∃ φ : Relabelling, us = ts.map φ ∧ φ.Fixes ts.tail := by
  cases ts with
  | nil =>
      obtain rfl : us = [] := headless_eq_nil_iff.mp (List.forall₂_nil_left_iff.mp h)
      exact ⟨.none, rfl, fun u hu => absurd hu List.not_mem_nil⟩
  | cons t ts =>
      have hnodup : ((t :: ts).map start).Nodup :=
        ((cutFrom_ofChars cs).pairwise_start.imp Nat.ne_of_lt).sublist (hts.sublist.map start)
      obtain ⟨hnotin, -⟩ := List.nodup_cons.mp hnodup
      have hne : ∀ u ∈ ts, u.start ≠ t.start := fun u hu heq => hnotin (List.mem_map.mpr ⟨u, hu, heq⟩)
      have htouchy : ∀ u ∈ t :: ts, u.start = t.start → ∀ m ∈ touchy, u.isText m = false := by
        intro u hu hstart m hm
        obtain rfl : u = t := (List.mem_cons.mp hu).resolve_right fun hu => hne u hu hstart
        have hmarks : ∀ m ∈ touchy, m.toList.head?.any Scan.beginsWord = false := by decide +kernel
        rw [Bool.eq_false_iff]
        intro htext
        obtain ⟨hkind, htext⟩ := kind_eq_mark_of_isText (hts.subset hu) (hmarks m hm) htext
        exact hfirst u rfl m hm hkind htext
      have htwins := twins_of_headless h fun u hu => congrArg start (Option.some.inj hu).symm
      obtain ⟨φ, hmap, hgap⟩ := Relabelling.exists_of_twins htwins hnodup htouchy
      exact ⟨φ, hmap.symm, fun u hu => hgap u (hne u hu)⟩

end Token

/-! ### Namespaces -/

namespace NamespaceParts

variable {s : NamespaceParts} {run inner inner' after : List Tree} {name : String} {opening opening' closing closing' word' : Token}

/-- What is read as a namespace is given by its parts. -/
theorem exists_of_whole? (h : Reader.whole? Reader.namespaceBlock run = some (name, inner)) :
    ∃ (s : NamespaceParts) (opening closing : Token) (after : List Tree), run = s.trees ∧
      name = Tree.verbatim s.name ∧ s.body = .group .curly opening inner (.present closing) :: after := by
  obtain ⟨_, ts₁, h₁, h⟩ := Reader.mem_bind.mp (Reader.mem_of_whole? h)
  obtain ⟨text, ts₂, h₂, h⟩ := Reader.mem_bind.mp h
  obtain ⟨⟨g, inner', closing⟩, ts₃, h₃, h⟩ := Reader.mem_bind.mp h
  obtain ⟨_, ts₄, h₄, h⟩ := Reader.mem_bind.mp h
  obtain ⟨heq, rfl⟩ := Reader.mem_pure.mp h
  obtain ⟨rfl, rfl⟩ := Prod.mk.inj heq
  obtain ⟨opening, rfl, rfl⟩ := Reader.mem_group.mp h₃
  obtain ⟨word, rfl, hword⟩ := leaves_one.mp (Reader.mem_skip_iff.mp h₁)
  have hname := Reader.leaves_of_mem_text h₂
  obtain ⟨front, rfl⟩ := hname.suffix
  obtain ⟨rfl, -⟩ := Reader.mem_text_append.mp h₂
  have hbody : Leaves (Tree.ruleDepth (.group .curly opening inner (.present closing) :: ts₃)) (closedBody (anyGroup .curly))
      (.group .curly opening inner (.present closing) :: ts₃) [] :=
    leaves_andThen.mpr ⟨ts₃, leaves_opens.mpr ⟨opening, inner, closing, inner, rfl, leaves_empty.mpr rfl⟩,
      (Reader.mem_skip_of_le (ruleDepth_le_of_suffix (List.suffix_cons _ _))).mp h₄⟩
  refine ⟨⟨word, front, .group .curly opening inner (.present closing) :: ts₃, ?_⟩, opening, closing, ts₃, rfl, rfl, rfl⟩
  refine ⟨?_, ?_, ?_, trivial⟩
  · exact (stands_iff (Nat.le_refl _)).mpr (leaves_one.mpr ⟨word, rfl, hword⟩)
  · rw [List.flatten_singleton]
    exact (stands_iff (Nat.le_refl _)).mpr hname
  · rw [List.flatten_nil]
    exact (stands_iff (Nat.le_refl _)).mpr (by rwa [List.append_nil])

theorem text_word (s : NamespaceParts) : s.word.text = "namespace" := by
  obtain ⟨t, heq, ht⟩ := leaves_one.mp (s.leaves (Nat.le_refl _)).1
  obtain rfl := Tree.token.inj (List.cons.inj heq).1
  exact beq_iff_eq.mp (Bool.and_eq_true_iff.mp ht).2

/-- **A namespace with another keyword and other braces**, and with its name as it stands elsewhere. -/
theorem divides_respelled (hbody : s.body = .group .curly opening inner (.present closing) :: after)
    (hword : word'.isText "namespace" = true) (φ : Relabelling) :
    Divides [the "namespace", qualifiedNameBut [], closedBody (anyGroup .curly)]
      [[.token word'], s.name.map (Tree.relabel φ), [.group .curly opening' inner' (.present closing')]] := by
  refine ⟨?_, ?_, ?_, trivial⟩
  · exact (stands_iff (Nat.le_refl _)).mpr (leaves_one.mpr ⟨word', rfl, hword⟩)
  · rw [List.flatten_singleton]
    obtain ⟨fuel, hfuel, hfuel'⟩ : ∃ fuel, Tree.ruleDepth s.trees ≤ fuel ∧
        Tree.ruleDepth (s.name.map (Tree.relabel φ) ++ [.group .curly opening' inner' (.present closing')]) ≤ fuel :=
      ⟨_, Nat.le_max_left _ _, Nat.le_max_right _ _⟩
    -- the name as it stands elsewhere ends where it did, whatever the braces behind it are
    obtain ⟨-, hname, -⟩ := s.leaves hfuel
    rw [← Reader.leaves_relabel (by decide) φ, hbody, List.map_cons, Tree.relabel_group, Closing.relabel] at hname
    obtain ⟨front, heq, hall⟩ := hname.change_behind (h := .group .curly) (overlookedBy_typeRules (by decide)) (by decide) rfl
    obtain rfl : front = [] := by simpa using heq
    exact (stands_iff hfuel').mpr (hall _ _ rfl)
  · rw [List.flatten_nil]
    refine (stands_iff (Nat.le_refl _)).mpr (leaves_andThen.mpr ⟨[], ?_, leaves_touchingSemicolon.mpr rfl⟩)
    exact leaves_opens.mpr ⟨opening', inner', closing', inner', rfl, leaves_empty.mpr rfl⟩

end NamespaceParts

/-! ### Runs that are spelled again -/

/-- What ends a declaration is no header of a loop. -/
theorem Tree.Sealed.not_loop {ts : List Tree} (h : Tree.Sealed ts) (before : List Tree) :
    (ts.reverse ++ before).head?.any (Tree.isText "for") = false := by
  obtain ⟨front, t, rfl, ht⟩ := h
  rw [List.reverse_append, List.reverse_singleton, List.append_assoc, List.singleton_append, List.head?_cons,
    Option.any_some]
  cases t with
  | token t =>
      have ht : t.isText ";" = true := ht
      have htext : t.text = ";" := by simpa using (Bool.and_eq_true_iff.mp ht).2
      simp [Tree.isText, Token.isText, htext]
  | group => rfl

namespace Node

open InteropStubs.Tree (AreOrderly Joins Moved)

variable {scope : Scope} {around : List Bracket} {runs runs' others others' : List (List Tree)} {run before : List Tree}
  {φ : Relabelling}

/-- Runs that may stand where others do: these decorated otherwise, without faults and in their places. -/
structure Respelled (around : List Bracket) (scope : Scope) (runs runs' : List (List Tree)) : Prop where
  decorated : Decorated scope runs runs'
  joins : Joins around runs'.flatten
  fault : fault? runs'.flatten = none
  placed : ∀ run' ∈ runs', Placed run'

theorem Decorated.append (h : Decorated scope runs runs') (hmore : Decorated scope others others') :
    Decorated scope (runs ++ others) (runs' ++ others') := by
  induction h with
  | nil => exact hmore
  | single h _ ih => exact .single h (ih hmore)
  | block h hbody hmembers _ _ ih => exact .block h hbody hmembers (ih hmore)

theorem fault?_append {ts us : List Tree} (hts : fault? ts = none) (hus : fault? us = none) : fault? (ts ++ us) = none :=
  fault?_eq_none_iff.mpr (List.forall_mem_append.mpr ⟨fault?_eq_none_iff.mp hts, fault?_eq_none_iff.mp hus⟩)

namespace Respelled

theorem nil : Respelled around scope [] [] :=
  ⟨.nil, .nil, rfl, fun _ h => absurd h List.not_mem_nil⟩

theorem append (h : Respelled around scope runs runs') (hmore : Respelled around scope others others') :
    Respelled around scope (runs ++ others) (runs' ++ others') where
  decorated := h.decorated.append hmore.decorated
  joins := List.flatten_append ▸ h.joins.append hmore.joins
  fault := List.flatten_append ▸ fault?_append h.fault hmore.fault
  placed := List.forall_mem_append.mpr ⟨h.placed, hmore.placed⟩

end Respelled

theorem sealed_of_usingDirective {words : List String} (h : (usingDirectiveBut words).fits run = true) :
    Tree.Sealed run :=
  Tree.sealed_of_semicolon (leaves_nil_iff.mpr (List.contains_iff_mem.mp h))

/-- The tokens of a directive begin with a keyword and end with a semicolon. -/
theorem tokens_of_usingDirective {words : List String} (h : (usingDirectiveBut words).fits run = true) :
    (∀ t ∈ (Tree.tokensAll run).head?, t.text = "global" ∨ t.text = "using") ∧ Token.Settled (Tree.tokensAll run) := by
  obtain ⟨mid, hfirst, hlast⟩ := leaves_andThen.mp (leaves_of_fits (Nat.le_refl _) h)
  obtain ⟨last, rfl, hsemicolon⟩ := leaves_one.mp hlast
  have hkeyword {s : String} {ts rest : List Tree} (h : Leaves (Tree.ruleDepth run) (the s) ts rest) :
      ∀ t ∈ (Tree.tokensAll ts).head?, t.text = s := by
    obtain ⟨u, rfl, hu⟩ := leaves_one.mp h
    intro t ht
    obtain rfl : u = t := by simpa [Tree.tokens] using ht
    exact beq_iff_eq.mp (Bool.and_eq_true_iff.mp hu).2
  refine ⟨?_, ?_⟩
  · rcases leaves_orElse.mp hfirst with h | h
    · obtain ⟨_, h, -⟩ := leaves_andThen.mp h
      obtain ⟨_, h, -⟩ := leaves_andThen.mp h
      exact fun t ht => .inl (hkeyword h t ht)
    · obtain ⟨_, h, -⟩ := leaves_andThen.mp h
      exact fun t ht => .inr (hkeyword h t ht)
  · obtain ⟨front, rfl⟩ := hfirst.suffix
    have htokens : Tree.tokensAll (front ++ [.token last]) = Tree.tokensAll front ++ [last] := by simp [Tree.tokens]
    rw [htokens]
    exact Token.settled_concat _ (.inl hsemicolon)

/-- **A directive is spelled again** as it was. -/
theorem respelled_usingDirective (h : (usingDirectiveBut (usingKeywords scope)).fits run = true)
    (horderly : AreOrderly around false (run.reverse ++ before)) (hbefore : before.head?.any (Tree.isText "for") = false)
    (hfault : fault? run = none) (hfixes : φ.Fixes (Tree.tokensAll run).tail) :
    Respelled around scope [run] [run.map (Tree.relabel φ)] := by
  have hmoved : Moved run (run.map (Tree.relabel φ)) := ⟨φ, hfixes, rfl⟩
  have hfits := fits_of_moved hmoved h
  refine ⟨.single (.usingDirective h hmoved) .nil, ?_, ?_, ?_⟩
  · rw [List.flatten_singleton]
    exact Joins.relabel φ horderly hbefore (sealed_of_usingDirective hfits).not_loop
  · rw [List.flatten_singleton]
    exact fault?_relabel hfault
  · exact List.forall_mem_singleton.mpr (placed_of_usingDirective hfits)

/-- A namespace is put together of its keyword, its name and what is in its braces. -/
theorem joins_namespaceBlock {s : NamespaceParts} {inner : List Tree} {word opening closing : Token}
    (horderly : AreOrderly around false (s.trees.reverse ++ before))
    (hword : word.kind = .word ∧ word.text = "namespace") (hopening : opening.kind = .mark ∧ opening.text = openBrace)
    (hclosing : closing.kind = .mark ∧ closing.text = closeBrace) (hinner : Joins (.curly :: around) inner) :
    Joins around ((.token word :: s.name.map (Tree.relabel φ)) ++ [.group .curly opening inner (.present closing)]) := by
  have hplain : Tree.bracketOpenedBy? word = none ∧ Tree.bracketClosedBy? word = none ∧ word.isText ";" = false :=
    Tree.plain_of_word (.inl hword.1) fun _ => hword.2 ▸ by decide
  have hloop : (Tree.token word).isText "for" = (Tree.token s.word).isText "for" := by
    simp [Tree.isText, Token.isText, hword, s.text_word]
  have hname : AreOrderly around false (s.name.reverse ++ .token s.word :: before) :=
    horderly.of_suffix (by simp [NamespaceParts.trees])
  refine Joins.block (fun before' hbefore' _ => ?_) ?_ ⟨?_, ?_⟩ hinner
  · rw [List.reverse_cons, List.append_assoc, List.singleton_append]
    refine hname.relabel φ (hbefore'.cons ?_) hloop
    exact .token hplain.1 (fun _ _ => by simp [hplain]) fun h => absurd h Bool.false_ne_true
  · simp [Tree.bracketOpenedBy?, Token.isText, hopening]
  · simp [Tree.bracketOpenedBy?, Token.isText, Token.isDirective, hclosing]
  · simp [Tree.bracketClosedBy?, Token.isText, hclosing]

/-- **A namespace is spelled again** around what is spelled again for its body. -/
theorem respelled_namespaceBlock {s : NamespaceParts} {inner after : List Tree}
    {word' opening opening' closing closing' : Token} {members' : List (List Tree)}
    (hbody : s.body = .group .curly opening inner (.present closing) :: after)
    (horderly : AreOrderly around false (s.trees.reverse ++ before)) (hfault : fault? s.trees = none)
    (hfixes : φ.Fixes (Tree.tokensAll s.name).tail)
    (hword : word'.kind = .word ∧ word'.text = "namespace") (hopening : opening'.kind = .mark ∧ opening'.text = openBrace)
    (hclosing : closing'.kind = .mark ∧ closing'.text = closeBrace)
    (hinner : Respelled (.curly :: around) .body (Tree.runs .body (bodyOf s.trees)) members') :
    Respelled around scope [s.trees] [.token word' :: (s.name.map (Tree.relabel φ) ++
      [.group .curly opening' members'.flatten (.present closing')])] := by
  have hkeyword : word'.isText "namespace" = true := by simp [Token.isText, hword]
  let s' : NamespaceParts := ⟨word', s.name.map (Tree.relabel φ),
    [.group .curly opening' members'.flatten (.present closing')], s.divides_respelled hbody hkeyword φ⟩
  have hblock : DecoratedBlock s.trees s'.trees := .namespaceBlock ⟨φ, hfixes, rfl⟩
  refine ⟨.block hblock hinner.decorated ?_ .nil, ?_, ?_, ?_⟩
  · simp [bodyOf, Tree.isGroup]
  · rw [List.flatten_singleton, ← List.cons_append]
    exact joins_namespaceBlock horderly hword hopening hclosing hinner.joins
  · have hgroup : faultIn? (.group .curly opening' members'.flatten (.present closing')) = none := by
      rw [faultIn?, hinner.fault]
      rfl
    have hname : fault? s.name = none := fault?_eq_none_iff.mpr fun t ht =>
      fault?_eq_none_iff.mp hfault t (List.mem_cons_of_mem _ (List.mem_append_left _ ht))
    rw [List.flatten_singleton]
    refine fault?_eq_none_iff.mpr (List.forall_mem_cons.mpr ⟨faultIn?_of_word (.inl hword.1), ?_⟩)
    exact List.forall_mem_append.mpr ⟨fault?_eq_none_iff.mp (fault?_relabel hname), List.forall_mem_singleton.mpr hgroup⟩
  · exact List.forall_mem_singleton.mpr (placed_of_namespaceParts s')

end Node

end InteropStubs
