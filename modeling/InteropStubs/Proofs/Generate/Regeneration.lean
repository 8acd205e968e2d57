import InteropStubs.Proofs.Generate.Below
import InteropStubs.Proofs.Node.Respelled

/-!
# Regeneration

What is generated for a source without interfaces is a source itself, and what is generated for that is the same text
(`generate_generate`). Every directive and every name in it is written as in the source, and in front of blanks it has
the tokens that it had there.

* `Tree.Situated.provides_render`: what is rendered for trees of a source gives the tokens of trees that are spelled
  again for them.
-/

namespace InteropStubs

open Phrase Rule

/-! ### Directives and namespaces only -/

namespace Node

variable {config : Config}

/-- Whether a node is a directive or a namespace. -/
def isOutline : Node → Bool
  | usingDirective _ | namespaceBlock .. => true
  | _ => false

theorem isStubbed_of_isOutline {n : Node} (h : n.isOutline = true) : n.isStubbed = true := by
  cases n <;> first | rfl | exact absurd h Bool.false_ne_true

mutual

theorem isOutline_of_interfacesIn : ∀ n : Node, violationsIn config n = [] → interfacesIn n = [] →
    ∀ k ∈ allIn n, k.isOutline = true
  | namespaceBlock _ _ members, h, hnone => by
      rw [allIn_eq]
      exact List.forall_mem_cons.mpr ⟨rfl, isOutline_of_interfaces members h hnone⟩
  | usingDirective _, _, _ => by
      rw [allIn_eq]
      exact List.forall_mem_singleton.mpr rfl
  | interface .., _, hnone => absurd hnone (List.cons_ne_nil _ _)
  | method .., h, _ | property .., h, _ | other .., h, _ | error .., h, _ | missing .., h, _ => by
      simp [violationsIn, own, breach?] at h

/-- Where nothing is wrong and no interface is declared, there are directives and namespaces only. -/
theorem isOutline_of_interfaces : ∀ ns : List Node, violations config ns = [] → interfaces ns = [] →
    ∀ k ∈ all ns, k.isOutline = true
  | [], _, _ => fun _ hk => absurd hk List.not_mem_nil
  | n :: ns, h, hnone => by
      obtain ⟨hn, hns⟩ := List.append_eq_nil_iff.mp h
      obtain ⟨hnoneIn, hnoneBehind⟩ := List.append_eq_nil_iff.mp hnone
      exact List.forall_mem_append.mpr
        ⟨isOutline_of_interfacesIn n hn hnoneIn, isOutline_of_interfaces ns hns hnoneBehind⟩

end

end Node

/-! ### Lines -/

namespace Token

variable {unit text : String} {P : List Token → Prop}

/-- A line gives what its text gives. -/
theorem provides_line (hunit : ∀ c ∈ unit.toList, Text.isBlank c = true) (d : Nat)
    (h : Provides (text.toList ++ ['\n']) P) : Provides (Line.print unit d [⟨0, text⟩]).toList P := by
  have hindent : ∀ c ∈ (String.join (List.replicate d unit)).toList, Text.isBlank c = true := by
    intro c hc
    rw [String.toList_join] at hc
    obtain ⟨s, hs, hmem⟩ := List.mem_flatMap.mp hc
    exact hunit c (List.eq_of_mem_replicate hs ▸ hmem)
  have hline : (Line.print unit d [⟨0, text⟩]).toList = (Line.indented unit d ⟨0, text⟩).toList ++ ['\n'] := by
    simp [Line.print]
  rw [hline, Line.indented]
  split
  · next hempty =>
    obtain rfl : text = "" := String.isEmpty_iff.mp hempty
    exact h
  · rw [String.toList_append, List.append_assoc]
    exact h.skip (skips_of_forall_isBlank hindent)

end Token

/-! ### Trees of a text -/

namespace Tree

open Token (Provides Ended Kin)

variable {cs : List Char} {around : List Bracket} {scope : Scope} {bound : Nat} {ts front inner after run : List Tree}
  {opening closing : Token}

/-- Trees of a text as they stand in it: behind a semicolon or a brace, between some brackets, and all closed. -/
structure Situated (cs : List Char) (around : List Bracket) (ts : List Tree) : Prop where
  tokens : ∃ before after, Token.ofChars cs = before ++ (tokensAll ts ++ after) ∧ Ended before
  orderly : ∃ before, AreOrderly around false (ts.reverse ++ before) ∧ before.head?.any (isText "for") = false
  complete : ∀ t ∈ ts, t.Complete

namespace Situated

/-- The declarations of a list stand where the list does. -/
theorem of_mem_runs (h : Situated cs around ts)
    (hstubbed : ∀ k ∈ Node.all (Node.ofTreesWithin (bound + 1) scope ts), k.isStubbed = true)
    (hrun : run ∈ runs scope ts) : Situated cs around run := by
  obtain ⟨rs, rs', hsplit⟩ := List.append_of_mem hrun
  have hts : ts = rs.flatten ++ (run ++ rs'.flatten) := by
    rw [← Node.flatten_runs scope ts, hsplit, List.flatten_append, List.flatten_cons]
  refine ⟨?_, ?_, Node.complete_of_mem_runs h.complete hrun⟩
  · obtain ⟨before, after, htokens, hended⟩ := h.tokens
    refine ⟨before ++ rs.flatMap tokensAll, rs'.flatMap tokensAll ++ after, ?_,
      hended.append (Node.ended_of_isStubbed hstubbed h.complete hsplit)⟩
    rw [htokens, ← Node.tokensAll_runs scope ts, hsplit]
    simp
  · obtain ⟨before, horderly, hbefore⟩ := h.orderly
    refine ⟨rs.flatten.reverse ++ before, horderly.of_suffix ?_, ?_⟩
    · rw [hts]
      simp
    · rcases rs.eq_nil_or_concat with rfl | ⟨rs, last, rfl⟩
      · exact hbefore
      · rw [List.concat_eq_append] at hsplit ⊢
        have hlast : last ∈ runs scope ts := by simp [hsplit]
        rw [List.flatten_append, List.flatten_singleton, List.reverse_append, List.append_assoc]
        exact (Node.stubs_of_mem_runs hstubbed hlast).ends.not_loop _

/-- What is in braces stands between them. -/
theorem below (h : Situated cs around (front ++ .group .curly opening inner (.present closing) :: after)) :
    Situated cs (.curly :: around) inner := by
  obtain ⟨hfront, hbehind⟩ := List.forall_mem_append.mp h.complete
  have hgroup := hbehind _ List.mem_cons_self
  refine ⟨?_, ⟨[], ?_, rfl⟩, hgroup.below⟩
  · obtain ⟨before, more, htokens, hended⟩ := h.tokens
    refine ⟨before ++ (tokensAll front ++ [opening]), closing :: (tokensAll after ++ more), ?_,
      hended.append (ended_of_opens hfront hgroup.opens)⟩
    rw [htokens]
    simp [Tree.tokens, Closing.tokens]
  · obtain ⟨before, horderly, -⟩ := h.orderly
    have horderly := horderly (.group .curly opening inner (.present closing)) (front.reverse ++ before) (by simp)
    rw [List.append_nil]
    cases horderly with
    | group _ _ hinner => exact hinner

/-- **Trees that are written elsewhere** as they were, in front of a blank, are the same but for the gap in front of
them. -/
theorem provides_verbatim {front ts after : List Tree} {c : Char} (h : Situated cs around (front ++ (ts ++ after)))
    (hbroken : ∀ t ∈ Token.ofChars cs, t.isBroken = false) (hfront : ∀ t ∈ tokensAll front, t.IsPlain)
    (hsettled : Token.Settled (tokensAll ts))
    (hfirst : ∀ t ∈ (tokensAll ts).head?, ∀ m ∈ Token.touchy, t.kind = .mark → t.text ≠ m)
    (hc : Text.isBlank c = true) :
    Provides ((verbatim ts).toList ++ [c]) fun us =>
      ∃ φ : Relabelling, us = tokensAll (ts.map (relabel φ)) ∧ φ.Fixes (tokensAll ts).tail := by
  obtain ⟨before, more, htokens, hended⟩ := h.tokens
  rw [tokensAll_append, tokensAll_append, List.append_assoc, List.append_assoc] at htokens
  have hwithin : tokensAll ts <:+: Token.ofChars cs :=
    ⟨before ++ tokensAll front, tokensAll after ++ more, by simp [htokens]⟩
  have hcomplete : ∀ t ∈ ts, t.Complete := fun t ht => h.complete t (by simp [ht])
  have hspells := Token.spells_of_settled htokens hended (fun t ht => hbroken t (by simp [htokens, ht])) hfront
    (quotes_le_of_complete hcomplete) (fun t ht => hbroken t (hwithin.subset ht)) hsettled
  refine (hspells.provides hc).mono fun us hus => ?_
  obtain ⟨φ, rfl, hfixes⟩ := Token.exists_relabelling hus hwithin hfirst
  exact ⟨φ, (tokensAll_relabel φ ts).symm, hfixes⟩

/-! ### Runs -/

/-- Tokens of runs that are spelled again for some runs. -/
def Respelling (around : List Bracket) (scope : Scope) (runs : List (List Tree)) (us : List Token) : Prop :=
  ∃ runs', Node.Respelled around scope runs runs' ∧ us = tokensAll runs'.flatten

/-- **A directive** gives a directive again. -/
theorem provides_usingDirective (h : Situated cs around run) (hbroken : ∀ t ∈ Token.ofChars cs, t.isBroken = false)
    (hfits : (usingDirectiveBut (Node.usingKeywords scope)).fits run = true) (hfault : Node.fault? run = none) :
    Provides ((verbatim run).toList ++ ['\n']) (Respelling around scope [run]) := by
  obtain ⟨hkeyword, hsettled⟩ := Node.tokens_of_usingDirective hfits
  obtain ⟨before, horderly, hbefore⟩ := h.orderly
  have hmarks : ∀ m ∈ Token.touchy, m ≠ "global" ∧ m ≠ "using" := by decide
  have hrun : Situated cs around ([] ++ (run ++ [])) := by simpa using h
  refine (hrun.provides_verbatim hbroken (fun _ ht => absurd ht List.not_mem_nil) hsettled ?_ (by decide)).mono ?_
  · rintro t ht m hm - rfl
    exact (hkeyword t ht).elim (hmarks _ hm).1 (hmarks _ hm).2
  · rintro us ⟨φ, rfl, hfixes⟩
    exact ⟨_, Node.respelled_usingDirective hfits horderly hbefore hfault hfixes, by rw [List.flatten_singleton]⟩

/-- The keyword of a namespace is a word. -/
theorem kind_eq_word {s : NamespaceParts} (h : Situated cs around s.trees)
    (hbroken : ∀ t ∈ Token.ofChars cs, t.isBroken = false) : s.word.kind = .word := by
  obtain ⟨before, more, htokens, hended⟩ := h.tokens
  rw [NamespaceParts.trees, tokensAll_cons, Tree.tokens, List.singleton_append, List.cons_append] at htokens
  exact Token.kind_eq_word htokens hended (fun t ht => hbroken t (by simp [htokens, ht]))
    (congrArg String.toList s.text_word) (by decide +kernel)

/-- **The line that a namespace begins with** gives its keyword and its name. -/
theorem provides_namespaceHeader {s : NamespaceParts} (h : Situated cs around s.trees)
    (hbroken : ∀ t ∈ Token.ofChars cs, t.isBroken = false) :
    Provides (("namespace " ++ verbatim s.name).toList ++ ['\n']) fun us => ∃ (word : Token) (φ : Relabelling),
      us = word :: tokensAll (s.name.map (relabel φ)) ∧ (word.kind = .word ∧ word.text = "namespace") ∧
        φ.Fixes (tokensAll s.name).tail := by
  obtain ⟨-, hname, -⟩ := s.leaves (Nat.le_refl _)
  obtain ⟨front, heq, hsettled⟩ := settles_qualifiedNameBut hname
  obtain rfl : s.name = front := List.append_cancel_right heq
  have hfirst : ∀ t ∈ (tokensAll s.name).head?, ∀ m ∈ Token.touchy, t.kind = .mark → t.text ≠ m :=
    fun t ht m _ hmark => absurd ((kind_eq_word_of_qualifiedNameBut hname t ht).symm.trans hmark) (by decide)
  have hparts : Situated cs around ([.token s.word] ++ (s.name ++ s.body)) := h
  have hword : Provides ("namespace".toList ++ [' ']) fun us => ∃ u, us = [u] ∧ u.kind = .word ∧ u.text = "namespace" :=
    Token.provides_word (by decide +kernel) (by decide)
  have hspelled := hword.append <| hparts.provides_verbatim hbroken
    (List.forall_mem_singleton.mpr (.inl (h.kind_eq_word hbroken))) hsettled hfirst (c := '\n') (by decide)
  have hchars : ("namespace " ++ verbatim s.name).toList ++ ['\n'] =
      "namespace".toList ++ [' '] ++ ((verbatim s.name).toList ++ ['\n']) := by
    simp
  rw [hchars]
  refine hspelled.mono ?_
  rintro us ⟨_, _, rfl, ⟨word, rfl, hword⟩, φ, rfl, hfixes⟩
  exact ⟨word, φ, rfl, hword, hfixes⟩

/-- **A namespace** gives a namespace again, if what is written for its body gives its body. -/
theorem provides_namespaceBlock {unit : String} (hunit : ∀ c ∈ unit.toList, Text.isBlank c = true) (d : Nat)
    {s : NamespaceParts} (h : Situated cs around s.trees) (hbroken : ∀ t ∈ Token.ofChars cs, t.isBroken = false)
    (hbody : s.body = .group .curly opening inner (.present closing) :: after) (hfault : Node.fault? s.trees = none)
    {ls : List Line} (hinner : Provides (Line.print unit (d + 1) ls).toList
      (Respelling (.curly :: around) .body (runs .body (Node.bodyOf s.trees)))) :
    Provides (Line.print unit d (Line.nested ["namespace " ++ verbatim s.name] ls)).toList
      (Respelling around scope [s.trees]) := by
  obtain ⟨before, horderly, -⟩ := h.orderly
  have hheader := Token.provides_line hunit d (h.provides_namespaceHeader hbroken)
  have hopen := Token.provides_line hunit d (Token.provides_brace (.inl rfl) (c := '\n') (by decide))
  have hclose := Token.provides_line hunit d (Token.provides_brace (.inr rfl) (c := '\n') (by decide))
  have hprint : Line.print unit d (Line.nested ["namespace " ++ verbatim s.name] ls) =
      Line.print unit d [⟨0, "namespace " ++ verbatim s.name⟩] ++ (Line.print unit d [⟨0, openBrace⟩] ++
        (Line.print unit (d + 1) ls ++ Line.print unit d [⟨0, closeBrace⟩])) := by
    rw [← Line.print_deeper, ← Line.print_append, ← Line.print_append, ← Line.print_append]
    simp [Line.nested, Line.openers, Line.closers]
  rw [hprint, String.toList_append, String.toList_append, String.toList_append]
  refine (hheader.append (hopen.append (hinner.append hclose))).mono ?_
  rintro us ⟨_, _, rfl, ⟨word', φ, rfl, hword', hfixes⟩, _, _, rfl, ⟨opening', rfl, hopening'⟩, _, _, rfl,
    ⟨members', hmembers, rfl⟩, closing', rfl, hclosing'⟩
  exact ⟨_, Node.respelled_namespaceBlock hbody horderly hfault hfixes hword' hopening' hclosing' hmembers,
    by simp [Tree.tokens, Closing.tokens]⟩

/-- **A declaration that is a directive or a namespace** gives itself again, if the bodies of all namespaces do. -/
theorem provides_run {config : Config} (hunit : ∀ c ∈ config.indent.toList, Text.isBlank c = true) (d : Nat)
    (h : Situated cs around run) (hbroken : ∀ t ∈ Token.ofChars cs, t.isBroken = false) (hdepth : depth run ≤ bound)
    (hstubs : Node.Stubs (Node.ofTreesWithin bound .body) scope run (Node.ofRun (Node.ofTreesWithin bound) scope run))
    (hfault : Node.fault? run = none)
    (houtline : ∀ k ∈ Node.allIn (Node.ofRun (Node.ofTreesWithin bound) scope run), k.isOutline = true)
    (ih : ∀ {around inner} d, Situated cs around inner → depth inner < bound →
      (∀ k ∈ Node.all (Node.ofTreesWithin bound .body inner), k.isOutline = true) →
        Provides (Line.print config.indent d (Node.render config (Node.ofTreesWithin bound .body inner))).toList
          (Respelling around .body (runs .body inner))) :
    Provides (Line.print config.indent d (Node.renderNode config (Node.ofRun (Node.ofTreesWithin bound) scope run))).toList
      (Respelling around scope [run]) := by
  rw [Node.allIn_eq] at houtline
  obtain ⟨hnode, hmembers⟩ := List.forall_mem_cons.mp houtline
  generalize Node.ofRun (Node.ofTreesWithin bound) scope run = n at hstubs hnode hmembers ⊢
  cases hstubs with
  | usingDirective hfits => exact Token.provides_line hunit d (h.provides_usingDirective hbroken hfits hfault)
  | @namespaceBlock name inner hread =>
      have hclosed : areClosed run = true := areClosed_iff.mpr fun t ht => (h.complete t ht).closed
      have hinner : Node.bodyOf run = inner := (Node.body_of_namespaceBlock hread).bodyOf_eq hclosed
      obtain ⟨s, opening, closing, after, rfl, rfl, hbody⟩ := NamespaceParts.exists_of_whole? hread
      have hbraces : s.trees = (.token s.word :: s.name) ++ .group .curly opening inner (.present closing) :: after := by
        rw [NamespaceParts.trees, hbody, List.cons_append]
      have hgroup : .group .curly opening inner (.present closing) ∈ s.trees := by simp [hbraces]
      have hinside : Situated cs (.curly :: around) inner := by
        rw [hbraces] at h
        exact h.below
      have hbelow := ih (d + 1) hinside ((depth_lt_of_mem hgroup).trans_le hdepth) hmembers
      rw [← hinner] at hbelow ⊢
      exact h.provides_namespaceBlock hunit d hbroken hbody hfault hbelow
  | interface | method | property => exact absurd hnode Bool.false_ne_true

/-- **What is rendered for trees of a text** gives the tokens of trees that are spelled again for them. -/
theorem provides_render {config : Config} (hunit : ∀ c ∈ config.indent.toList, Text.isBlank c = true)
    (hbroken : ∀ t ∈ Token.ofChars cs, t.isBroken = false) (bound : Nat) : ∀ {scope around ts} d,
    Situated cs around ts → depth ts < bound →
      (∀ k ∈ Node.all (Node.ofTreesWithin bound scope ts), k.isOutline = true) →
        Provides (Line.print config.indent d (Node.render config (Node.ofTreesWithin bound scope ts))).toList
          (Respelling around scope (runs scope ts)) := by
  induction bound with
  | zero => exact fun _ _ hdepth => absurd hdepth (Nat.not_lt_zero _)
  | succ bound ih =>
      intro scope around ts d h hdepth houtline
      have hstubbed : ∀ k ∈ Node.all (Node.ofTreesWithin (bound + 1) scope ts), k.isStubbed = true :=
        fun k hk => Node.isStubbed_of_isOutline (houtline k hk)
      obtain ⟨heq, hruns⟩ := Node.ofTreesWithin_eq_map hstubbed
      rw [heq, Node.all_eq_flatMap, List.flatMap_map] at houtline
      have hrun : ∀ run ∈ runs scope ts, Provides (Line.print config.indent d
          (Node.renderNode config (Node.ofRun (Node.ofTreesWithin bound) scope run))).toList
            (Respelling around scope [run]) := fun run hrun =>
        (h.of_mem_runs hstubbed hrun).provides_run hunit d hbroken
          ((Node.depth_le_of_mem_runs hrun).trans (Nat.lt_succ_iff.mp hdepth)) (Node.stubs_of_mem_runs hstubbed hrun)
          (Node.fault?_of_ofRun (Node.hasError_of_isStubbed _ (hruns run hrun)))
          (fun k hk => houtline k (List.mem_flatMap.mpr ⟨run, hrun, hk⟩)) ih
      rw [heq]
      -- Only `hrun` goes into the induction over the runs: the other facts speak of all of `ts`.
      clear heq hruns houtline
      generalize runs scope ts = rs at hrun ⊢
      induction rs with
      | nil => exact (Token.provides_of_skips .nil).mono fun us hus => ⟨[], .nil, hus⟩
      | cons run rs ihruns =>
          obtain ⟨hfirst, hmore⟩ := List.forall_mem_cons.mp hrun
          rw [List.map_cons, Node.render, Line.print_append, String.toList_append]
          refine (hfirst.append (ihruns hmore)).mono ?_
          rintro us ⟨_, _, rfl, ⟨run', hrun', rfl⟩, runs', hruns', rfl⟩
          exact ⟨_, hrun'.append hruns', by rw [List.flatten_append, tokensAll_append]⟩

end Situated

end Tree

/-! ### Files -/

variable {config : Config} {source text : String}

/-- The tokens of what is generated are those of trees that are spelled again for the trees of the source. -/
theorem exists_respelled_of_generate (hindent : ∀ c ∈ config.indent.toList, c = ' ' ∨ c = '\t')
    (h : generate config source = .ok text) (hnone : Node.interfaces (File.read source).nodes = []) :
    ∃ runs', Node.Respelled [] .file (Tree.runs .file (File.trees source)) runs' ∧ File.trees text = runs'.flatten := by
  have hstubbed := isStubbed_of_generate h
  obtain ⟨hviolations, rfl⟩ := generate_eq_ok_iff.mp h
  have hunit : ∀ c ∈ config.indent.toList, Text.isBlank c = true := fun c hc => by
    rcases hindent c hc with rfl | rfl <;> decide
  have hsituated : Tree.Situated source.toList [] (File.trees source) := by
    refine ⟨⟨[], [], ?_, .nil⟩, ⟨[], ?_, rfl⟩, File.complete_of_isStubbed hstubbed⟩
    · rw [File.trees, Tree.tokensAll_ofTokens, List.nil_append, List.append_nil]
    · rw [List.append_nil]
      exact Tree.orderly_ofTokens _
  have houtline := Node.isOutline_of_interfaces _ hviolations hnone
  rw [File.nodes_eq hstubbed] at houtline ⊢
  have hrender := hsituated.provides_render hunit (File.unbroken_of_isStubbed hstubbed) _ 0 (Nat.lt_succ_self _) houtline
  have hheader : Token.Trivia "// <auto-generated />\n#nullable enable\n".toList :=
    .line " <auto-generated />".toList (by simp [Token.breaksLine])
      (.directive "#nullable enable\n".toList (by decide +kernel) .nil)
  obtain ⟨runs', hrespelled, htokens⟩ := (hrender.skip hheader.skips).ofChars
  refine ⟨runs', hrespelled, ?_⟩
  rw [Line.print_append, print_fileHeader, File.trees, String.toList_append, htokens]
  exact hrespelled.joins.ofTokens_eq (Node.areClosed_of_fault? _ hrespelled.fault)

/-- **What is generated for what was generated** is the same, if no interface is declared and lines are indented by
blanks. -/
theorem generate_generate (hindent : ∀ c ∈ config.indent.toList, c = ' ' ∨ c = '\t')
    (h : generate config source = .ok text) (hnone : Node.interfaces (File.read source).nodes = []) :
    generate config text = .ok text := by
  have hviolations := (generate_eq_ok_iff.mp h).1
  obtain ⟨runs', hrespelled, htrees⟩ := exists_respelled_of_generate hindent h hnone
  have hspelled : Tree.Spelled runs'.flatten := htrees ▸ File.spelled_trees text
  refine generate_of_bare h ?_
  change Node.bare (Node.ofTrees (File.trees text)) = Node.bare (Node.ofTrees (File.trees source))
  rw [htrees]
  exact Node.bare_ofTrees_of_placed (File.spelled_trees source) hspelled
    (fun k hk => ⟨Node.isStubbed_of_violations _ hviolations k hk, Node.hasOneBase_of_violations _ hviolations k hk⟩)
    hrespelled.decorated hrespelled.fault hrespelled.placed

/-- A directive over two lines with a comment, and namespaces inside each other with a semicolon behind them. -/
theorem generate_generate_nested :
    let source := "using static /* all\n of it */ A .\n\tB;namespace C . @D"
      ++ braced ("namespace E" ++ braced "using F=G<H>;" ++ ";") ++ ";"
    (∀ c ∈ ({} : Config).indent.toList, c = ' ' ∨ c = '\t') ∧ Node.interfaces (File.read source).nodes = [] ∧
      ∃ text, generate {} source = .ok text ∧ generate {} text = .ok text := by
  intro source
  have hindent : ∀ c ∈ ({} : Config).indent.toList, c = ' ' ∨ c = '\t' := by simp
  have hnone : Node.interfaces (File.read source).nodes = [] := by decide +kernel
  obtain ⟨text, h⟩ : ∃ text, generate {} source = .ok text := exists_generate_of_isOk (by decide +kernel)
  exact ⟨hindent, hnone, text, h, generate_generate hindent h hnone⟩

end InteropStubs
