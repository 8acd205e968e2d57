import InteropStubs.Proofs.Node.Body
import InteropStubs.Proofs.Token.Block
import InteropStubs.Proofs.Tree.Ground

/-!
# Namespaces around items

A keyword, a dotted name and a group in braces are one run of a file, and its node is a namespace with the nodes of
what is in the group (`Node.ofTreesWithin_block`), whatever words the name is made of.
-/

namespace InteropStubs

open Phrase Rule Token

variable {scope : Scope} {names : List String} {name : List Token} {word opening closing : Token} {inner : List Tree}

/-- A dotted name is written as its words with points between them. -/
theorem Token.Dotted.verbatim_trees (h : Dotted names name) :
    Tree.verbatim (name.map .token) = ".".intercalate names := by
  rw [Tree.verbatim, Tree.tokensAll_map_token, h.verbatim]

/-- The trees of a namespace. -/
def Tree.block (word : Token) (name : List Token) (opening : Token) (inner : List Tree) (closing : Token) : List Tree :=
  .token word :: (name.map .token ++ [.group .curly opening inner (.present closing)])

namespace Tree

theorem depth_block : depth (block word name opening inner closing) = depth inner + 1 := by
  have hgroup : .group .curly opening inner (.present closing) ∈ block word name opening inner closing := by
    simp [block]
  refine Nat.le_antisymm (depth_le_iff.mpr fun t ht => ?_) (depth_lt_of_mem hgroup)
  rcases List.mem_cons.mp ht with rfl | ht
  · exact Nat.zero_le _
  · rcases List.mem_append.mp ht with ht | ht
    · obtain ⟨u, -, rfl⟩ := List.mem_map.mp ht
      exact Nat.zero_le _
    · obtain rfl := List.mem_singleton.mp ht
      exact Nat.le_refl _

/-- A word or a point is no bracket, and no statement ends there. -/
theorem plain_of_word {t : Token} (h : t.kind = .word ∨ t.kind = .mark ∧ t.text = ".")
    (hspelled : t.kind = .word → t.text ∉ Words.marks) :
    bracketOpenedBy? t = none ∧ bracketClosedBy? t = none ∧ t.isText ";" = false := by
  have hnone {m : String} (hm : m ∈ ["(", "[", openBrace, ")", "]", closeBrace, ";"]) : t.isText m = false := by
    have hmarks : ∀ m ∈ ["(", "[", openBrace, ")", "]", closeBrace, ";"], m ∈ Words.marks ∧ "." ≠ m := by decide
    rw [Bool.eq_false_iff]
    intro htext
    obtain ⟨-, rfl⟩ : (t.kind = .word ∨ t.kind = .mark) ∧ t.text = m := by simpa [Token.isText] using htext
    rcases h with h | ⟨-, h⟩
    · exact hspelled h (hmarks _ hm).1
    · exact (hmarks _ hm).2 h.symm
  have hkind : t.kind ≠ .conditional ∧ t.kind ≠ .openingQuote ∧ t.kind ≠ .closingQuote := by
    rcases h with h | ⟨h, -⟩ <;> rw [h] <;> decide
  have hdirective (name : String) : t.isDirective name = false := by simp [isDirective, hkind]
  exact ⟨by simp [bracketOpenedBy?, hnone, hdirective, hkind], by simp [bracketClosedBy?, hnone, hdirective, hkind],
    hnone (by decide)⟩

/-- **The trees of a namespace**, if what is in its braces does not close them. -/
theorem ofTokens_block {us : List Token} (hword : word.kind = .word) (hname : Dotted names name)
    (hopening : opening.kind = .mark ∧ opening.text = openBrace)
    (hclosing : closing.kind = .mark ∧ closing.text = closeBrace)
    (hspelled : ∀ t ∈ word :: name, t.kind = .word → t.text ∉ Words.marks)
    (hclosed : areClosed (ofTokens us) = true) (hstray : stray .curly (ofTokens us) = false) :
    ofTokens (word :: (name ++ opening :: (us ++ [closing]))) = block word name opening (ofTokens us) closing := by
  have hopen : bracketOpenedBy? opening = some .curly := by
    simp [bracketOpenedBy?, Token.isText, hopening]
  have hnone : bracketOpenedBy? closing = none := by
    simp [bracketOpenedBy?, Token.isText, isDirective, hclosing]
  have hclose : bracketClosedBy? closing = some .curly := by
    simp [bracketClosedBy?, Token.isText, hclosing]
  have hplain : ∀ t ∈ word :: name,
      bracketOpenedBy? t = none ∧ bracketClosedBy? t = none ∧ t.isText ";" = false := by
    intro t ht
    refine plain_of_word ?_ (hspelled t ht)
    rcases List.mem_cons.mp ht with rfl | ht
    · exact .inl hword
    · exact hname.kinds t ht
  exact ofTokens_braces hplain hopen hnone hclose hclosed hstray

end Tree

namespace Phrase

variable {fuel : Nat}

/-- The parts of a dotted name behind its first word. -/
theorem leaves_parts (fuel : Nat) {ts : List Token} (h : Dotted names ts) (rest : List Tree) :
    ∃ t name, ts = t :: name ∧ t.kind = .word ∧
      Leaves fuel (many (the "." ++ simpleName)) (name.map .token ++ rest) rest := by
  induction h with
  | one ht => exact ⟨_, [], rfl, ht.1, leaves_many_refl rest⟩
  | @more w t point u names name ht hpoint hgaps h ih =>
      obtain ⟨u', name', heq, hu, hparts⟩ := ih
      obtain ⟨rfl, rfl⟩ := List.cons.inj heq
      refine ⟨t, _, rfl, ht.1, leaves_many.mpr (.inr ⟨name.map .token ++ rest, ?_, ?_, hparts⟩)⟩
      · have hdot : point.isText "." = true := by simp [isText, hpoint]
        have hword : (TokenClass.nameBut []).holds u = true := by simp [TokenClass.holds, hu]
        exact leaves_andThen.mpr ⟨_, leaves_one.mpr ⟨point, rfl, hdot⟩, leaves_andThen.mpr
          ⟨_, leaves_one.mpr ⟨u, rfl, hword⟩, leaves_optional.mpr (.inr rfl)⟩⟩
      · intro heq
        have hlength := congrArg List.length heq
        simp only [List.map_cons, List.cons_append, List.length_cons] at hlength
        omega

/-- A dotted name is a qualified name. -/
theorem leaves_qualifiedName (h : Dotted names name) (rest : List Tree) :
    Leaves fuel (qualifiedNameBut []) (name.map .token ++ rest) rest := by
  obtain ⟨t, name, rfl, ht, hparts⟩ := leaves_parts fuel h rest
  have hword : (TokenClass.nameBut []).holds t = true := by simp [TokenClass.holds, ht]
  exact leaves_andThen.mpr ⟨_, leaves_orElse.mpr (.inr (leaves_andThen.mpr
    ⟨_, leaves_one.mpr ⟨t, rfl, hword⟩, leaves_optional.mpr (.inr rfl)⟩)), hparts⟩

theorem leaves_block (hword : word.isText "namespace" = true) (hname : Dotted names name) :
    Leaves fuel (namespaceBlock (anyGroup .curly)) (Tree.block word name opening inner closing) [] := by
  have hkeyword : Leaves fuel (the "namespace") (Tree.block word name opening inner closing)
      (name.map .token ++ [.group .curly opening inner (.present closing)]) :=
    leaves_one.mpr ⟨word, rfl, hword⟩
  have hbraces : Leaves fuel (anyGroup .curly) [.group .curly opening inner (.present closing)] [] :=
    leaves_opens.mpr ⟨opening, inner, closing, inner, rfl, leaves_empty.mpr rfl⟩
  have hbody := leaves_andThen.mpr ⟨_, hbraces, leaves_touchingSemicolon.mpr rfl⟩
  exact leaves_andThen.mpr ⟨_, leaves_andThen.mpr ⟨_, hkeyword, leaves_qualifiedName hname _⟩, hbody⟩

theorem leaves_blockStart_block (hword : word.isText "namespace" = true) :
    Leaves fuel blockStart (Tree.block word name opening inner closing)
      (name.map .token ++ [.group .curly opening inner (.present closing)]) :=
  leaves_orElse.mpr (.inl (leaves_one.mpr ⟨word, rfl, hword⟩))

/-- A namespace may stand in a file. -/
theorem fits_block (hword : word.isText "namespace" = true) (hname : Dotted names name) :
    (fileItemWith (anyGroup .curly)).fits (Tree.block word name opening inner closing) = true := by
  have hmem : namespaceBlock (anyGroup .curly) ∈ (fileItemWith (anyGroup .curly)).alternatives :=
    .tail _ (.tail _ (.tail _ (.tail _ (.head _))))
  refine List.contains_iff_mem.mpr (leaves_nil_iff.mp ?_)
  exact leaves_alternatives.mpr ⟨_, hmem, leaves_block hword hname⟩

end Phrase

namespace Reader

/-- **A namespace is read** with its name as it is written and with all that is in its braces. -/
theorem reads_block (hword : word.isText "namespace" = true) (hname : Dotted names name) :
    Reads [] namespaceBlock (Tree.block word name opening inner closing) (".".intercalate names, inner) [] where
  mem := by
    refine mem_bind.mpr ⟨(), _, mem_skip_iff.mpr (leaves_one.mpr ⟨word, rfl, hword⟩), ?_⟩
    refine mem_bind.mpr ⟨_, _, mem_text_append.mpr ⟨hname.verbatim_trees.symm, leaves_qualifiedName hname _⟩, ?_⟩
    refine mem_bind.mpr ⟨_, _, mem_group.mpr ⟨opening, rfl, rfl⟩, ?_⟩
    exact mem_bind.mpr ⟨(), [], mem_skip_iff.mpr (leaves_touchingSemicolon.mpr rfl), mem_pure.mpr ⟨rfl, rfl⟩⟩
  only b left hmem := by
    obtain ⟨_, ts₁, h₁, hmem⟩ := mem_bind.mp hmem
    obtain ⟨text, ts₂, h₂, hmem⟩ := mem_bind.mp hmem
    obtain ⟨⟨g, inner', closing'⟩, ts₃, h₃, hmem⟩ := mem_bind.mp hmem
    obtain ⟨_, ts₄, h₄, hmem⟩ := mem_bind.mp hmem
    obtain ⟨rfl, rfl⟩ := mem_pure.mp hmem
    obtain ⟨t, heq, -⟩ := leaves_one.mp (mem_skip_iff.mp h₁)
    obtain ⟨-, rfl⟩ := List.cons.inj heq
    obtain ⟨opening', rfl, rfl⟩ := mem_group.mp h₃
    -- The name has no braces, so it ends where the braces are that follow it.
    obtain ⟨front, hts, hfront⟩ := (leaves_of_mem_text h₂).without (typeRules_avoidedBy (h := .group .curly) (by decide))
      (by decide)
    have htokens : ∀ t ∈ name.map Tree.token, ¬ (Head.group .curly).of t := by
      intro t ht
      obtain ⟨u, -, rfl⟩ := List.mem_map.mp ht
      exact id
    obtain ⟨rfl, hgroup, rfl⟩ := eq_of_append_cons hts htokens hfront rfl rfl
    obtain ⟨-, rfl, rfl, hclosing⟩ := Tree.group.inj hgroup
    obtain rfl := Closing.present.inj hclosing
    have htext := (mem_text_append.mp h₂).1
    have hleft := leaves_touchingSemicolon.mp (mem_skip_iff.mp h₄)
    exact .inl ⟨Prod.ext (htext.trans hname.verbatim_trees) rfl, hleft⟩

end Reader

namespace Node

variable {depth : Nat} {ts : List Tree}

theorem fault?_eq_none_iff : fault? ts = none ↔ ∀ t ∈ ts, faultIn? t = none := by
  induction ts with
  | nil => simp [fault?]
  | cons t ts ih => rw [fault?, Option.orElse_eq_or, Option.or_eq_none_iff, ih, List.forall_mem_cons]

/-- Nothing has a fault among items. -/
theorem fault?_of_isStubbed (hstubbed : ∀ k ∈ all (ofTreesWithin (depth + 1) scope ts), k.isStubbed = true) :
    fault? ts = none := by
  refine fault?_eq_none_iff.mpr fun t ht => ?_
  obtain ⟨run, hrun, ht⟩ := List.mem_flatten.mp (flatten_runs scope ts ▸ ht)
  have herror := hasError_of_isStubbed _ ((ofTreesWithin_eq_map hstubbed).2 run hrun)
  exact fault?_eq_none_iff.mp (fault?_of_ofRun herror) t ht

theorem faultIn?_of_word {t : Token} (h : t.kind = .word ∨ t.kind = .mark ∧ t.text = ".") :
    faultIn? (.token t) = none := by
  obtain ⟨kind, gap, text, start, trail⟩ := t
  rcases h with rfl | ⟨rfl, -⟩ <;> rfl

theorem fault?_block (hword : word.kind = .word) (hname : Dotted names name) (hinner : fault? inner = none) :
    fault? (Tree.block word name opening inner closing) = none := by
  have hgroup : faultIn? (.group .curly opening inner (.present closing)) = none := by
    rw [faultIn?, hinner]
    rfl
  refine fault?_eq_none_iff.mpr (List.forall_mem_cons.mpr ⟨faultIn?_of_word (.inl hword), ?_⟩)
  refine List.forall_mem_append.mpr ⟨fun t ht => ?_, fun t ht => List.mem_singleton.mp ht ▸ hgroup⟩
  obtain ⟨u, hu, rfl⟩ := List.mem_map.mp ht
  exact faultIn?_of_word (hname.kinds u hu)

/-- A namespace is one run of a file. -/
theorem runs_block (hword : word.kind = .word ∧ word.text = "namespace") (hname : Dotted names name)
    (hspelled : Tree.Spelled (Tree.block word name opening inner closing)) :
    Tree.runs .file (Tree.block word name opening inner closing) = [Tree.block word name opening inner closing] := by
  have htext : word.isText "namespace" = true := by simp [isText, hword.1, hword.2]
  have hitem : Item (Tree.block word name opening inner closing) :=
    .block (fits_block htext hname) (leaves_blockStart_block htext)
  have hall : Tree.Spelled (Tree.block word name opening inner closing ++ []) := by rwa [List.append_nil]
  have hparted : Tree.Parted [] := nofun
  have hitemSize := hitem.fileItemSize?_append hall hparted
  obtain ⟨back, hblock⟩ : ∃ back, Tree.block word name opening inner closing = .token word :: back := ⟨_, rfl⟩
  rw [hblock] at hitemSize ⊢
  have hsize : Run.size .file (.token word) (back ++ []) = back.length + 1 := by
    have halone : Run.isAlone (.token word) = false := by simp [Run.isAlone, hword.1]
    rw [Run.size, halone]
    exact congrArg (Option.getD · _) hitemSize
  have hruns := runs_append hsize
  rwa [List.append_nil] at hruns

/-- The declaration that a namespace is. -/
theorem declaration?_block (read : Scope → List Tree → List Node) (hword : word.isText "namespace" = true)
    (hname : Dotted names name) :
    declaration? read .file (Tree.block word name opening inner closing) =
      some (.namespaceBlock (spanOf (Tree.block word name opening inner closing)) (".".intercalate names)
        (read .body inner)) := by
  have hdirective : (usingDirectiveBut usingWords).fits (Tree.block word name opening inner closing) = false := by
    rw [Bool.eq_false_iff]
    intro hfits
    exact not_leaves_blockStart (leaves_nil_iff.mpr (List.contains_iff_mem.mp hfits)) (leaves_blockStart_block hword)
  have hread : Reader.whole? Reader.namespaceBlock (Tree.block word name opening inner closing) =
      some (".".intercalate names, inner) :=
    (Reader.reads_block hword hname).whole? List.not_mem_nil
  rw [declaration?_eq (by simp [Tree.block]), usingDirective?_eq, usingKeywords, hdirective,
    if_pos (fits_block hword hname), sharedDeclaration?, hread]
  rfl

/-- **The node of a namespace** has the name as it is written and the nodes of what is in the braces. -/
theorem ofTreesWithin_block (hword : word.kind = .word ∧ word.text = "namespace") (hname : Dotted names name)
    (hspelled : Tree.Spelled (Tree.block word name opening inner closing)) (hinner : fault? inner = none) :
    ofTreesWithin (depth + 1) .file (Tree.block word name opening inner closing) =
      [.namespaceBlock (spanOf (Tree.block word name opening inner closing)) (".".intercalate names)
        (ofTreesWithin depth .body inner)] := by
  have htext : word.isText "namespace" = true := by simp [isText, hword.1, hword.2]
  have hfault : fault? (Tree.block word name opening inner closing) = none := fault?_block hword.1 hname hinner
  have hrun := ofRun_of_declaration? hfault (declaration?_block (ofTreesWithin depth) htext hname)
  rw [ofTreesWithin, runs_block hword hname hspelled, ofRuns_none_cons, hrun]
  rfl

end Node

end InteropStubs
