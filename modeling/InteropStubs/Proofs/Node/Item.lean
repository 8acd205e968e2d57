import InteropStubs.Proofs.Node.Border
import InteropStubs.Proofs.Phrase.Ends
import InteropStubs.Proofs.Phrase.Fuel
import InteropStubs.Proofs.Phrase.Terminated

/-!
# Items

The declarations of a file that go into stubs are using directives, namespaces and interfaces (`Node.Item`).
Each of them ends where its phrase closes, whatever follows: no longer declaration begins at its place, and no
statement either. So the next one is looked for right behind it.

* `Node.Item.fileItemSize?_append`: an item has its size in front of others.
-/

namespace InteropStubs

open Phrase Rule

namespace Phrase

variable {fuel : Nat} {ts mid left : List Tree}

/-! ### What closes -/

theorem terminated_usingDirective : Terminated sealHeads (usingDirectiveBut usingWords) :=
  .andThen (by decide) .semicolon

theorem terminated_externAlias : Terminated plainHeads externAlias :=
  .andThen (by decide) .semicolon

theorem terminated_fileScopedNamespace : Terminated plainHeads fileScopedNamespace :=
  .andThen (by decide) .semicolon

theorem terminated_namespaceBlock : Terminated plainHeads (namespaceBlock (anyGroup .curly)) :=
  .andThen (by decide) (.body rfl)

theorem terminated_typeEnd : Terminated plainHeads (typeEnd (anyGroup .curly)) :=
  .orElse (.body rfl) .semicolon

theorem terminated_fileType : Terminated plainHeads (fileType (anyGroup .curly)) := by
  have hend := terminated_typeEnd
  have hclass : Terminated plainHeads (classType (anyGroup .curly)) := .andThen (by decide) hend
  have hstruct : Terminated plainHeads (structType (anyGroup .curly)) := .andThen (by decide) hend
  have hrecord : Terminated plainHeads (recordType (anyGroup .curly)) := .andThen (by decide) hend
  have hinterface : Terminated plainHeads (interfaceType (anyGroup .curly)) := .andThen (by decide) hend
  have henum : Terminated plainHeads enumType := .andThen (by decide) (.body rfl)
  have hdelegate : Terminated plainHeads delegateType := .andThen (by decide) .semicolon
  exact .andThen (by decide) <|
    .orElse hclass <| .orElse hstruct <| .orElse hrecord <| .orElse hinterface <| .orElse henum hdelegate

/-! ### What is something else -/

/-- What namespaces and interfaces begin with. -/
def blockStart : Phrase :=
  the "namespace" <|> decorations ++ the "interface"

theorem token_mem_of_blockStart (h : Leaves fuel blockStart ts mid) : ∃ t, .token t ∈ ts := by
  rcases leaves_orElse.mp h with h | h
  · obtain ⟨t, rfl, -⟩ := leaves_one.mp h
    exact ⟨t, List.mem_cons_self⟩
  · obtain ⟨us, hdecorations, hword⟩ := leaves_andThen.mp h
    obtain ⟨t, rfl, -⟩ := leaves_one.mp hword
    exact ⟨t, hdecorations.suffix.subset List.mem_cons_self⟩

theorem begins_of_isText {t : Token} {s : String} (ht : t.isText s = true) :
    ∃ h ∈ [Head.word s, .mark s], h.Begins (.token t :: ts) := by
  obtain ⟨hkind | hkind, htext⟩ : (t.kind = .word ∨ t.kind = .mark) ∧ t.text = s := by
    simpa [Token.isText] using ht
  · exact ⟨.word s, by simp, hkind, htext⟩
  · exact ⟨.mark s, by simp, hkind, htext⟩

/-- A using directive is no namespace or interface. -/
theorem not_leaves_blockStart {words : List String} (h : Leaves fuel (usingDirectiveBut words) ts left) :
    ¬ Leaves fuel blockStart ts mid := by
  have hrefuses : ∀ s ∈ ["global", "using"], ∀ h ∈ [Head.word s, .mark s], blockStart.refuses h = true := by
    decide
  have hnone {s : String} (hs : s ∈ ["global", "using"]) {us : List Tree} (hword : Leaves fuel (the s) ts us) :
      ¬ Leaves fuel blockStart ts mid := by
    obtain ⟨t, rfl, ht⟩ := leaves_one.mp hword
    obtain ⟨h, hh, hb⟩ := begins_of_isText ht
    exact not_leaves hb (hrefuses s hs h hh)
  obtain ⟨us, hdirective, -⟩ := leaves_andThen.mp h
  rcases leaves_orElse.mp hdirective with h | h
  · obtain ⟨vs, hglobal, -⟩ := leaves_andThen.mp h
    obtain ⟨ws, hword, -⟩ := leaves_andThen.mp hglobal
    exact hnone (by decide) hword
  · obtain ⟨vs, hword, -⟩ := leaves_andThen.mp h
    exact hnone (by decide) hword

theorem of_leaves_fileStatement (hl : Leaves fuel fileStatement ts left) :
    Leaves fuel noDeclaration ts ts ∧ Leaves fuel (rule .statement) ts left := by
  obtain ⟨us, hl, hstatement⟩ := leaves_andThen.mp hl
  obtain ⟨vs, hbracket, hnone⟩ := leaves_andThen.mp hl
  obtain ⟨rfl, -⟩ := leaves_absent.mp hbracket
  obtain ⟨ws, htype, hother⟩ := leaves_andThen.mp hnone
  obtain ⟨rfl, -⟩ := leaves_absent.mp htype
  obtain ⟨rfl, -⟩ := leaves_absent.mp hother
  exact ⟨hnone, hstatement⟩

/-- A namespace or an interface is no statement. -/
theorem not_leaves_fileStatement (h : Leaves fuel blockStart ts mid) : ¬ Leaves fuel fileStatement ts left := by
  intro hl
  obtain ⟨us, htype, hother⟩ := leaves_andThen.mp (of_leaves_fileStatement hl).1
  obtain ⟨rfl, htype⟩ := leaves_absent.mp htype
  rcases leaves_orElse.mp h with h | h
  · exact (leaves_absent.mp hother).2 mid (leaves_orElse.mpr (.inl h))
  · obtain ⟨vs, hdecorations, hword⟩ := leaves_andThen.mp h
    obtain ⟨t, rfl, ht⟩ := leaves_one.mp hword
    have hkeyword : (TokenClass.anyOf Words.typeDeclarations).holds t = true := by
      have ht : t.isText "interface" = true := ht
      rw [Token.isText, Bool.and_eq_true, beq_iff_eq] at ht
      rw [TokenClass.holds, ht.1, ht.2]
      rfl
    exact htype mid (leaves_andThen.mpr
      ⟨_, hdecorations, leaves_orElse.mpr (.inl (leaves_one.mpr ⟨t, rfl, hkeyword⟩))⟩)

/-- The rules of expressions, and those that they refer to. -/
def expressionRules : List Rule := [
  .type, .valueType, .typeArguments, .attributes, .parameters, .block, .expression, .afterPlace, .afterValue,
  .place, .operand, .arguments, .opensOther, .pattern, .properPattern, .casePattern, .testedPattern,
  .closedPattern, .designation, .subpattern, .tupleNames, .effect]

theorem expressionRules_avoidedBy : AvoidedBy expressionRules (.mark ";") := by
  have hall : ∀ r ∈ expressionRules, r.phrase.avoids expressionRules (.mark ";") = true := by decide
  exact hall

/-- A phrase that ends with a semicolon and takes no other one. -/
theorem exists_semicolon {rules : List Rule} {p : Phrase} (hts : Tree.Spelled ts)
    (hrules : AvoidedBy rules (.mark ";")) (hp : p.avoids rules (.mark ";") = true)
    (hl : Leaves fuel (p ++ the ";") ts left) :
    ∃ front e, ts = front ++ e :: left ∧ (∀ t ∈ front, ¬ (Head.mark ";").of t) ∧ (Head.mark ";").of e := by
  obtain ⟨mid, hmid, hend⟩ := leaves_andThen.mp hl
  obtain ⟨e, rfl, he⟩ := leaves_one.mp hend
  obtain ⟨front, rfl, hfront⟩ := hmid.without hrules hp
  exact ⟨front, _, rfl, hfront, hts.of_isText (by simp) (by decide) he⟩

/-- So there is one end of such phrases. -/
theorem eq_of_semicolon {left' : List Tree}
    (h : ∃ front e, ts = front ++ e :: left ∧ (∀ t ∈ front, ¬ (Head.mark ";").of t) ∧ (Head.mark ";").of e)
    (h' : ∃ front e, ts = front ++ e :: left' ∧ (∀ t ∈ front, ¬ (Head.mark ";").of t) ∧ (Head.mark ";").of e) :
    left = left' := by
  obtain ⟨front, e, hts, hfront, he⟩ := h
  obtain ⟨front', e', hts', hfront', he'⟩ := h'
  exact (eq_of_append_cons (hts.symm.trans hts') hfront hfront' he he').2.2

/-- **A using directive that is a statement, too**, ends with the same semicolon: it is no statement with a
resource, which would be in parentheses, and variables end with a semicolon. -/
theorem eq_of_statement {left' : List Tree} (hts : Tree.Spelled ts)
    (husing : Leaves fuel (usingDirectiveBut usingWords) ts left) (hl : Leaves fuel fileStatement ts left') :
    left' = left := by
  obtain ⟨hnone, hstatement⟩ := of_leaves_fileStatement hl
  have hend := exists_semicolon hts (typeRules_avoidedBy (by decide)) (by decide) husing
  obtain ⟨mid, hdirective, -⟩ := leaves_andThen.mp husing
  rcases leaves_orElse.mp hdirective with h | h
  · obtain ⟨us, hglobal, -⟩ := leaves_andThen.mp h
    obtain ⟨vs, -, hother⟩ := leaves_andThen.mp hnone
    obtain ⟨rfl, hother⟩ := leaves_absent.mp hother
    exact absurd (leaves_orElse.mpr (.inr (leaves_orElse.mpr (.inl hglobal)))) (hother us)
  · obtain ⟨us, hword, htarget⟩ := leaves_andThen.mp h
    obtain ⟨t, rfl, ht⟩ := leaves_one.mp hword
    have hround : ¬ (Head.group .round).Begins us := fun hb => not_leaves hb (by decide) htarget
    have hbegins : ∃ h ∈ [Head.word "using", .mark "using"], h.Begins (.token t :: us) := begins_of_isText ht
    obtain ⟨h, hh, hb⟩ := hbegins
    have hopen : ∃ resource body, Rule.statement.phrase.openAt h =
        [Phrase.optional (the "await") ++ the "using" ++ parens resource ++ rule .statement, body ++ the ";"] ∧
          body.avoids expressionRules (.mark ";") = true := by
      simp only [List.mem_cons, List.not_mem_nil, or_false] at hh
      rcases hh with rfl | rfl <;> exact ⟨_, _, rfl, by decide⟩
    have hawait : (the "await").refuses h = true := by
      simp only [List.mem_cons, List.not_mem_nil, or_false] at hh
      rcases hh with rfl | rfl <;> decide
    obtain ⟨resource, body, hopen, hbody⟩ := hopen
    cases fuel with
    | zero =>
        obtain ⟨n, hn, -⟩ := hstatement
        exact absurd hn List.not_mem_nil
    | succ fuel =>
      obtain ⟨q, hq, hl⟩ := exists_openAt hb (leaves_rule.mp hstatement)
      rw [hopen, List.mem_cons, List.mem_singleton] at hq
      rcases hq with rfl | rfl
      · obtain ⟨vs, hl, -⟩ := leaves_andThen.mp hl
        obtain ⟨ws, hl, hresource⟩ := leaves_andThen.mp hl
        obtain ⟨xs, hl, hword⟩ := leaves_andThen.mp hl
        obtain rfl := (leaves_optional_of_refuses hb hawait).mp hl
        obtain ⟨_, heq, -⟩ := leaves_one.mp hword
        obtain ⟨-, rfl⟩ := List.cons.inj heq
        obtain ⟨opening, inner, closing, rfl, -⟩ := leaves_within.mp hresource
        exact absurd rfl hround
      · exact eq_of_semicolon (exists_semicolon hts expressionRules_avoidedBy hbody hl) hend

end Phrase

namespace Node

variable {run rest left mid : List Tree} {n : Node}

/-- A run of a file that is a using directive, or a namespace or interface. -/
inductive Item (run : List Tree) : Prop
  | usingDirective (h : (usingDirectiveBut usingWords).fits run = true)
  | block {mid : List Tree} (hfits : (fileItemWith (anyGroup .curly)).fits run = true)
      (hstart : Leaves (Tree.ruleDepth run) blockStart run mid)

theorem exists_blockStart {read : List Tree → List Node} (hn : n.isStubbed = true)
    (h : sharedDeclaration? read run = some n) : ∃ mid, Leaves (Tree.ruleDepth run) blockStart run mid := by
  unfold sharedDeclaration? at h
  split at h
  · next hr =>
    obtain ⟨_, mid, hskip, -⟩ := Reader.mem_bind.mp (Reader.mem_of_whole? hr)
    exact ⟨mid, leaves_orElse.mpr (.inl (Reader.mem_skip_iff.mp hskip))⟩
  · split at h
    · next hr =>
      obtain ⟨_, mid, hskip, -⟩ := Reader.mem_bind.mp (Reader.mem_of_whole? hr)
      exact ⟨mid, leaves_orElse.mpr (.inr (Reader.mem_skip_iff.mp hskip))⟩
    · obtain ⟨kind, -, rfl⟩ := Option.map_eq_some_iff.mp h
      exact absurd hn (by rw [isStubbed_ofKind]; exact nofun)

/-- **What goes into stubs of a file** are items. -/
theorem item_of_declaration? {read : Scope → List Tree → List Node} (hn : n.isStubbed = true)
    (h : declaration? read .file run = some n) : Item run := by
  unfold declaration? at h
  split at h
  · obtain ⟨-, h⟩ := Option.ite_none_right_eq_some.mp h
    obtain rfl := Option.some.inj h
    exact absurd hn Bool.false_ne_true
  · simp only [Option.orElse_eq_or, usingDirective?_eq] at h
    rcases Option.or_eq_some_iff.mp h with h | ⟨-, h⟩
    · exact .usingDirective (Option.ite_none_right_eq_some.mp h).1
    · rcases Option.or_eq_some_iff.mp h with h | ⟨-, h⟩
      · obtain ⟨hfits, h⟩ := Option.ite_none_right_eq_some.mp h
        obtain ⟨mid, hstart⟩ := exists_blockStart hn h
        exact .block hfits hstart
      · obtain ⟨kind, -, rfl⟩ := Option.map_eq_some_iff.mp h
        exact absurd hn Bool.false_ne_true

/-- Whatever follows a namespace or interface, it begins as one. -/
theorem exists_blockStart_append (hending : Ending sealHeads run [])
    (hstart : Leaves (Tree.ruleDepth run) blockStart run mid) (rest : List Tree) :
    ∃ mid', Leaves (Tree.ruleDepth (run ++ rest)) blockStart (run ++ rest) mid' := by
  have hfuel := ruleDepth_le_append run rest
  generalize hnil : ([] : List Tree) = none at hending
  obtain ⟨-, ⟨h, hh, he⟩, after⟩ := hending
  have hoverlooks : ∀ h ∈ sealHeads, blockStart.overlooks typeRules h = true := by decide
  obtain ⟨front, -, hall⟩ := ((leaves_iff_of_le (Nat.le_refl _) hfuel).mp hstart).change_behind
    (overlookedBy_typeRules (List.mem_append_left _ hh)) (hoverlooks h hh) he
  have hstart' := hall _ (after ++ rest) he
  rw [← List.cons_append, ← List.append_assoc] at hstart'
  exact ⟨_, hstart'⟩

namespace Item

/-- What an item of a file can be. -/
theorem alternatives_fileItem : (fileItemWith (anyGroup .curly)).alternatives =
    [globalAttribute, externAlias, usingDirectiveBut usingWords, fileScopedNamespace,
      Rule.namespaceBlock (anyGroup .curly), fileType (anyGroup .curly), fileStatement] := rfl

theorem cases_of_mem_alternatives {q : Phrase} (hq : q ∈ (fileItemWith (anyGroup .curly)).alternatives) :
    q = globalAttribute ∨ q = usingDirectiveBut usingWords ∨ q = fileStatement ∨ Terminated plainHeads q := by
  rw [alternatives_fileItem] at hq
  simp only [List.mem_cons, List.not_mem_nil, or_false] at hq
  rcases hq with rfl | rfl | rfl | rfl | rfl | rfl | rfl
  · exact .inl rfl
  · exact .inr (.inr (.inr terminated_externAlias))
  · exact .inr (.inl rfl)
  · exact .inr (.inr (.inr terminated_fileScopedNamespace))
  · exact .inr (.inr (.inr terminated_namespaceBlock))
  · exact .inr (.inr (.inr terminated_fileType))
  · exact .inr (.inr (.inl rfl))

/-- The alternative that a namespace or interface is. -/
theorem exists_terminated_of_block (hfits : (fileItemWith (anyGroup .curly)).fits run = true)
    (hstart : Leaves (Tree.ruleDepth run) blockStart run mid) :
    ∃ q ∈ (fileItemWith (anyGroup .curly)).alternatives, Terminated plainHeads q ∧
      Leaves (Tree.ruleDepth run) q run [] := by
  obtain ⟨q, hq, hl⟩ := leaves_alternatives.mp (leaves_nil_iff.mpr (List.contains_iff_mem.mp hfits))
  rcases cases_of_mem_alternatives hq with rfl | rfl | rfl | hterminated
  · obtain ⟨opening, inner, closing, rfl, -⟩ := leaves_within.mp hl
    exact absurd (token_mem_of_blockStart hstart) (by simp)
  · exact absurd hstart (not_leaves_blockStart hl)
  · exact absurd hl (not_leaves_fileStatement hstart)
  · exact ⟨q, hq, hterminated, hl⟩

/-- The alternative that an item is. -/
theorem exists_terminated (h : Item run) :
    ∃ q ∈ (fileItemWith (anyGroup .curly)).alternatives, ∃ heads, Terminated heads q ∧ sealHeads ⊆ heads ∧
      heads ⊆ plainHeads ∧ Leaves (Tree.ruleDepth run) q run [] := by
  cases h with
  | usingDirective h =>
      have hmem : usingDirectiveBut usingWords ∈ (fileItemWith (anyGroup .curly)).alternatives :=
        .tail _ (.tail _ (.head _))
      exact ⟨_, hmem, sealHeads, terminated_usingDirective, List.Subset.refl _, List.subset_append_left _ _,
        leaves_nil_iff.mpr (List.contains_iff_mem.mp h)⟩
  | block hfits hstart =>
      obtain ⟨q, hq, hterminated, hl⟩ := exists_terminated_of_block hfits hstart
      exact ⟨q, hq, plainHeads, hterminated, List.subset_append_left _ _, List.Subset.refl _, hl⟩

theorem ending (h : Item run) (hspelled : Tree.Spelled run) : Ending sealHeads run [] := by
  obtain ⟨q, -, heads, hterminated, hseals, hplain, hl⟩ := h.exists_terminated
  exact (hterminated.ending hplain hspelled hl).mono hseals

/-- What follows an item makes it no statement. -/
theorem eq_of_fileStatement (h : Item run) (hspelled : Tree.Spelled (run ++ rest)) (hrest : Tree.Parted rest)
    (hl : Leaves (Tree.ruleDepth (run ++ rest)) fileStatement (run ++ rest) left) : left = rest := by
  have hrun : Tree.Spelled run := hspelled.of_subset (List.subset_append_left _ _)
  have hending := h.ending hrun
  cases h with
  | usingDirective h =>
      have husing : Leaves (Tree.ruleDepth run) (usingDirectiveBut usingWords) run [] :=
        leaves_nil_iff.mpr (List.contains_iff_mem.mp h)
      have happend := terminated_usingDirective.append (List.subset_append_left _ _) (List.Subset.refl _) hrun
        ((leaves_iff_of_le (Nat.le_refl _) (ruleDepth_le_append run rest)).mp husing) hrest
      exact eq_of_statement hspelled happend hl
  | block _ hstart =>
      obtain ⟨mid, hstart⟩ := exists_blockStart_append hending hstart rest
      exact absurd hl (not_leaves_fileStatement hstart)

/-- An item ends in front of what follows, and nothing longer begins at its place. -/
theorem leaves_append (h : Item run) (hspelled : Tree.Spelled (run ++ rest)) (hrest : Tree.Parted rest) :
    Leaves (Tree.ruleDepth (run ++ rest)) (fileItemWith (anyGroup .curly)) (run ++ rest) rest ∧
      ∀ left, Leaves (Tree.ruleDepth (run ++ rest)) (fileItemWith (anyGroup .curly)) (run ++ rest) left →
        rest.length ≤ left.length := by
  have hrun : Tree.Spelled run := hspelled.of_subset (List.subset_append_left _ _)
  have hending := (h.ending hrun).append hrest
  obtain ⟨q, hq, heads, hterminated, hseals, hplain, hl⟩ := h.exists_terminated
  have hfuel := (leaves_iff_of_le (Nat.le_refl _) (ruleDepth_le_append run rest)).mp hl
  refine ⟨leaves_alternatives.mpr ⟨q, hq, hterminated.append hplain hseals hrun hfuel hrest⟩, fun left hleft => ?_⟩
  have hsame {heads : List Head} {q : Phrase} (hq : Terminated heads q) (hseals : sealHeads ⊆ heads)
      (hplain : heads ⊆ plainHeads) (hl : Leaves (Tree.ruleDepth (run ++ rest)) q (run ++ rest) left) :
      rest.length ≤ left.length := by
    rw [((hq.ending hplain hspelled hl).mono hseals).unique hending]
  obtain ⟨q, hq, hl⟩ := leaves_alternatives.mp hleft
  rcases cases_of_mem_alternatives hq with rfl | rfl | rfl | hterminated
  · obtain ⟨opening, inner, closing, heq, -⟩ := leaves_within.mp hl
    have hlength := congrArg List.length heq
    have hne : run.length ≠ 0 := fun hzero => (h.ending hrun).ne_nil (List.length_eq_zero_iff.mp hzero)
    rw [List.length_append, List.length_cons] at hlength
    omega
  · exact hsame terminated_usingDirective (List.Subset.refl _) (List.subset_append_left _ _) hl
  · rw [h.eq_of_fileStatement hspelled hrest hl]
  · exact hsame hterminated (List.subset_append_left _ _) (List.Subset.refl _) hl

/-- **The size of an item** is its size in front of others. -/
theorem fileItemSize?_append (h : Item run) (hspelled : Tree.Spelled (run ++ rest)) (hrest : Tree.Parted rest) :
    Run.fileItemSize? (run ++ rest) = some run.length := by
  obtain ⟨⟨n, hn, heq⟩, hall⟩ := h.leaves_append hspelled hrest
  have hle {m : Nat} (hm : m ∈ (fileItemWith (anyGroup .curly)).sizes (run ++ rest)) : m ≤ run.length := by
    have hlength := hall _ ⟨m, hm, rfl⟩
    have hbound := takes_le (rule_takes_le _) _ _ m hm
    rw [List.length_drop, List.length_append] at hlength
    rw [List.length_append] at hbound
    omega
  obtain rfl : n = run.length := by
    have hlength := congrArg List.length heq
    have hn := hle hn
    rw [List.length_drop, List.length_append] at hlength
    omega
  exact getLast?_sizes hn fun m => hle

theorem eq_length_of_fileItemSize? (h : Item run) (hspelled : Tree.Spelled (run ++ rest)) (hrest : Tree.Parted rest)
    {size : Nat} (hsize : Run.fileItemSize? (run ++ rest) = some size) : size = run.length :=
  Option.some.inj (hsize.symm.trans (h.fileItemSize?_append hspelled hrest))

end Item

/-- **A namespace or interface ends in front of what follows**, if it is an item at all. -/
theorem eq_of_fileItem (hending : Ending sealHeads run []) (hstart : Leaves (Tree.ruleDepth run) blockStart run mid)
    (hglobal : ∀ fuel left, ¬ Leaves fuel globalAttribute (run ++ rest) left) (hspelled : Tree.Spelled (run ++ rest))
    (hrest : Tree.Parted rest)
    (hl : Leaves (Tree.ruleDepth (run ++ rest)) (fileItemWith (anyGroup .curly)) (run ++ rest) left) :
    left = rest := by
  obtain ⟨mid', hstart'⟩ := exists_blockStart_append hending hstart rest
  obtain ⟨q, hq, hl⟩ := leaves_alternatives.mp hl
  rcases Item.cases_of_mem_alternatives hq with rfl | rfl | rfl | hterminated
  · exact absurd hl (hglobal _ _)
  · exact absurd hstart' (not_leaves_blockStart hl)
  · exact absurd hl (not_leaves_fileStatement hstart')
  · exact ((hterminated.ending (List.Subset.refl _) hspelled hl).mono (List.subset_append_left _ _)).unique
      (hending.append hrest)

/-- Where all items end in front of what follows a run, its size is that of the run. -/
theorem eq_length_of_forall_eq {size : Nat}
    (hall : ∀ left, Leaves (Tree.ruleDepth (run ++ rest)) (fileItemWith (anyGroup .curly)) (run ++ rest) left →
      left = rest) (h : Run.fileItemSize? (run ++ rest) = some size) : size = run.length := by
  have hmem := List.mem_of_getLast? h
  have hlength := congrArg List.length (hall _ ⟨size, hmem, rfl⟩)
  have hbound := takes_le (rule_takes_le _) _ _ size hmem
  rw [List.length_drop, List.length_append] at hlength
  rw [List.length_append] at hbound
  omega

end Node

end InteropStubs
