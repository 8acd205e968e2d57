import InteropStubs.Proofs.Node.Bare
import InteropStubs.Proofs.Node.Reads
import InteropStubs.Proofs.Tree.Matched

/-!
# How declarations begin and end

A declaration that goes into stubs ends with a semicolon or a group in braces, and it does not begin with
a mark of which a phrase asks whether it touches what is in front of it. Its body is between the braces at
its end, or there is none and it ends with a semicolon.

* `Node.Stubs.ends`, `Node.Stubs.not_begins`: how the run of a node ends and begins.
* `Node.body_of_namespaceBlock`, `Node.body_of_interface`: where the members come from.
-/

namespace InteropStubs

open Phrase Rule

namespace Tree

/-- Whether a tree may end a declaration: a semicolon, or a group in braces. -/
def Seals : Tree → Prop
  | token t => t.isText ";" = true
  | t@(group ..) => t.isBraces = true

/-- The last of some trees may end a declaration. -/
def Sealed (ts : List Tree) : Prop :=
  ∃ front t, ts = front ++ [t] ∧ t.Seals

variable {fuel : Nat} {p : Phrase} {ts rest : List Tree}

/-- Trees are sealed if an end of them is. -/
theorem Sealed.of_suffix (h : Sealed rest) (hs : rest <:+ ts) : Sealed ts := by
  obtain ⟨front, t, rfl, ht⟩ := h
  obtain ⟨more, rfl⟩ := hs
  exact ⟨more ++ front, t, (List.append_assoc ..).symm, ht⟩

/-- What ends with a semicolon is sealed. -/
theorem sealed_of_semicolon (h : Leaves fuel (p ++ the ";") ts []) : Sealed ts := by
  obtain ⟨mid, hmid, hend⟩ := leaves_andThen.mp h
  obtain ⟨t, rfl, ht⟩ := leaves_one.mp hend
  exact Sealed.of_suffix ⟨[], .token t, rfl, ht⟩ hmid.suffix

/-- Braces are sealed. -/
theorem sealed_braces {opening closing : Token} {inner : List Tree} :
    Sealed [.group .curly opening inner (.present closing)] :=
  ⟨[], _, rfl, rfl⟩

/-- A body is sealed. -/
theorem sealed_of_body (h : Leaves (fuel + 2) (rule .body) ts []) : Sealed ts := by
  rcases leaves_orElse.mp (leaves_rule.mp h) with h | h
  · obtain ⟨t, rfl, ht⟩ := leaves_one.mp h
    exact ⟨[], .token t, rfl, ht⟩
  · rcases leaves_orElse.mp h with h | h
    · obtain ⟨opening, inner, closing, rfl, -⟩ := leaves_within.mp (leaves_rule.mp h)
      exact sealed_braces
    · exact sealed_of_semicolon h

/-- A group in braces and a semicolon that may touch it. -/
theorem sealed_of_touching {opening closing : Token} {inner : List Tree}
    (h : Leaves fuel touchingSemicolon rest []) :
    Sealed (.group .curly opening inner (.present closing) :: rest) := by
  rcases leaves_orElse.mp h with h | h
  · obtain ⟨t, rfl, ht, -⟩ := leaves_touching.mp h
    exact ⟨[_], .token t, rfl, ht⟩
  · obtain ⟨rfl, -⟩ := leaves_absent.mp h
    exact sealed_braces

end Tree

namespace Node

/-- How a run becomes a node that goes into stubs. -/
inductive Stubs (read : List Tree → List Node) (scope : Scope) (run : List Tree) : Node → Prop
  | usingDirective (h : (usingDirectiveBut (usingKeywords scope)).fits run = true) :
      Stubs read scope run (.usingDirective (spanOf run))
  | namespaceBlock {name : String} {inner : List Tree}
      (h : Reader.whole? Reader.namespaceBlock run = some (name, inner)) :
      Stubs read scope run (.namespaceBlock (spanOf run) name (read inner))
  | interface {header : Interface} {inner : List Tree}
      (h : Reader.whole? Reader.interface run = some (header, inner)) :
      Stubs read scope run (.interface (spanOf run) header (read inner))
  | method {m : Method} (h : Reader.whole? Reader.method run = some m) :
      Stubs read scope run (.method (spanOf run) m)
  | property {p : Property} (h : Reader.whole? Reader.property run = some p) :
      Stubs read scope run (.property (spanOf run) p)

variable {scope : Scope} {run : List Tree} {n : Node}

/-- A stubbed namespace or interface says how it was read. -/
theorem stubs_of_sharedDeclaration? {read : List Tree → List Node} (hn : n.isStubbed = true)
    (h : sharedDeclaration? read run = some n) : Stubs read scope run n := by
  unfold sharedDeclaration? at h
  split at h
  · next name inner hr => exact Option.some.inj h ▸ .namespaceBlock hr
  · split at h
    · next header inner hr => exact Option.some.inj h ▸ .interface hr
    · obtain ⟨kind, -, rfl⟩ := Option.map_eq_some_iff.mp h
      exact absurd hn (by rw [isStubbed_ofKind]; exact nofun)

/-- A stubbed member says so, too. -/
theorem stubs_of_member? {read : List Tree → List Node} (hn : n.isStubbed = true) (h : member? run = some n) :
    Stubs read scope run n := by
  unfold member? at h
  split at h
  · next m hm => exact Option.some.inj h ▸ .method hm
  · split at h
    · next p hp => exact Option.some.inj h ▸ .property hp
    · obtain ⟨kind, -, rfl⟩ := Option.map_eq_some_iff.mp h
      exact absurd hn Bool.false_ne_true

/-- A stubbed declaration says how it was read. -/
theorem stubs_of_declaration? {read : Scope → List Tree → List Node} (hn : n.isStubbed = true)
    (h : declaration? read scope run = some n) : Stubs (read .body) scope run n := by
  unfold declaration? at h
  split at h
  · obtain ⟨-, h⟩ := Option.ite_none_right_eq_some.mp h
    obtain rfl := Option.some.inj h
    exact absurd hn Bool.false_ne_true
  · rw [Option.orElse_eq_or, usingDirective?_eq] at h
    rcases Option.or_eq_some_iff.mp h with h | ⟨-, h⟩
    · obtain ⟨hfits, h⟩ := Option.ite_none_right_eq_some.mp h
      exact Option.some.inj h ▸ .usingDirective hfits
    · cases scope with
      | body =>
          rcases Option.or_eq_some_iff.mp (Option.orElse_eq_or ▸ h) with h | ⟨-, h⟩
          · exact stubs_of_sharedDeclaration? hn h
          · exact stubs_of_member? hn h
      | file =>
          simp only [Option.orElse_eq_or] at h
          rcases Option.or_eq_some_iff.mp h with h | ⟨-, h⟩
          · exact stubs_of_sharedDeclaration? hn (Option.ite_none_right_eq_some.mp h).2
          · obtain ⟨kind, -, rfl⟩ := Option.map_eq_some_iff.mp h
            exact absurd hn Bool.false_ne_true

/-- The node of a run, if it goes into stubs. -/
theorem stubs_of_ofRun {read : Scope → List Tree → List Node}
    (h : ∀ k ∈ allIn (ofRun read scope run), k.isStubbed = true) :
    Stubs (read .body) scope run (ofRun read scope run) :=
  stubs_of_declaration? (h _ (allIn_eq _ ▸ List.mem_cons_self))
    (declaration?_of_ofRun (hasError_of_isStubbed _ h))

namespace Stubs

variable {read : List Tree → List Node}

/-- A stubbed node has the span of its run. -/
theorem span_eq (h : Stubs read scope run n) : n.span = spanOf run := by
  cases h <;> rfl

/-- A block with a semicolon behind it or none is sealed. -/
theorem sealed_of_mem_group {g : Tree} {inner rest ts : List Tree} {closing : Token} {u : Unit}
    (h : ((g, inner, closing), rest) ∈ Reader.group .curly ts)
    (hend : (u, []) ∈ Reader.skip touchingSemicolon rest) : Tree.Sealed ts := by
  obtain ⟨opening, rfl, rfl⟩ := Reader.mem_group.mp h
  exact Tree.sealed_of_touching (Reader.mem_skip_iff.mp hend)

/-- The end of a type is sealed. -/
theorem sealed_of_mem_typeEnd {inner ts : List Tree} (h : (inner, []) ∈ Reader.typeEnd ts) : Tree.Sealed ts := by
  obtain ⟨isEmpty, ts₁, h₁, h⟩ := Reader.mem_bind.mp h
  have hts₁ := Reader.LeavesEnd.next _ _ _ _ h₁
  cases isEmpty with
  | true =>
      obtain ⟨_, ts₂, h₂, h⟩ := Reader.mem_bind.mp h
      obtain ⟨-, rfl⟩ := Reader.mem_pure.mp h
      obtain ⟨t, rfl, ht⟩ := leaves_one.mp (Reader.mem_skip_iff.mp h₂)
      exact Tree.Sealed.of_suffix ⟨[], .token t, rfl, ht⟩ hts₁
  | false =>
      obtain ⟨⟨g, inner', closing⟩, ts₂, h₂, h⟩ := Reader.mem_bind.mp h
      obtain ⟨_, ts₃, h₃, h⟩ := Reader.mem_bind.mp h
      obtain ⟨-, rfl⟩ := Reader.mem_pure.mp h
      exact (sealed_of_mem_group h₂ h₃).of_suffix hts₁

/-- A method is sealed. -/
theorem sealed_of_mem_method {m : Method} {ts : List Tree} (h : (m, []) ∈ Reader.method ts) : Tree.Sealed ts := by
  obtain ⟨_, ts₁, h₁, h⟩ := Reader.mem_bind.mp h
  obtain ⟨_, ts₂, h₂, h⟩ := Reader.mem_bind.mp h
  obtain ⟨_, ts₃, h₃, h⟩ := Reader.mem_bind.mp h
  obtain ⟨_, ts₄, h₄, h⟩ := Reader.mem_bind.mp h
  obtain ⟨_, ts₅, h₅, h⟩ := Reader.mem_bind.mp h
  obtain ⟨-, rfl⟩ := Reader.mem_pure.mp h
  obtain ⟨mid, hmid, hbody⟩ := leaves_andThen.mp (Reader.mem_skip_iff.mp h₅)
  have hfuel : Tree.ruleDepth ts₄ = 16 * (Tree.tokensAll ts₄).length + 14 + 2 := by
    rw [Tree.ruleDepth, Nat.mul_add]
  rw [hfuel] at hbody
  exact (Tree.sealed_of_body hbody).of_suffix <| hmid.suffix.trans <|
    (Reader.LeavesEnd.given _ _ _ _ h₄).trans <| (Reader.LeavesEnd.group _ _ _ _ h₃).trans <|
    (Reader.LeavesEnd.skip _ _ _ _ h₂).trans (Reader.LeavesEnd.memberHead _ _ _ h₁)

/-- A property is sealed. -/
theorem sealed_of_mem_property {p : Property} {ts : List Tree} (h : (p, []) ∈ Reader.property ts) :
    Tree.Sealed ts := by
  obtain ⟨_, ts₁, h₁, h⟩ := Reader.mem_bind.mp h
  obtain ⟨isArrow, ts₂, h₂, h⟩ := Reader.mem_bind.mp h
  have hts₂ := (Reader.LeavesEnd.next _ _ _ _ h₂).trans (Reader.LeavesEnd.memberHead _ _ _ h₁)
  cases isArrow with
  | true =>
      obtain ⟨_, ts₃, h₃, h⟩ := Reader.mem_bind.mp h
      obtain ⟨-, rfl⟩ := Reader.mem_pure.mp h
      exact (Tree.sealed_of_semicolon (Reader.mem_skip_iff.mp h₃)).of_suffix hts₂
  | false =>
      obtain ⟨⟨g, inner, closing⟩, ts₃, h₃, h⟩ := Reader.mem_bind.mp h
      obtain ⟨_, ts₄, h₄, h⟩ := Reader.mem_bind.mp h
      obtain ⟨_, ts₅, h₅, h⟩ := Reader.mem_bind.mp h
      obtain ⟨-, rfl⟩ := Reader.mem_pure.mp h
      obtain ⟨opening, rfl, rfl⟩ := Reader.mem_group.mp h₃
      obtain ⟨-, rfl⟩ := Reader.mem_given.mp h₄
      refine Tree.Sealed.of_suffix ?_ hts₂
      rcases leaves_optional.mp (Reader.mem_skip_iff.mp h₅) with h | rfl
      · exact (Tree.sealed_of_semicolon h).of_suffix (List.suffix_cons _ _)
      · exact Tree.sealed_braces

/-- **A declaration ends** with a semicolon or a group in braces. -/
theorem ends (h : Stubs read scope run n) : Tree.Sealed run := by
  cases h with
  | usingDirective h => exact Tree.sealed_of_semicolon (leaves_nil_iff.mpr (List.contains_iff_mem.mp h))
  | namespaceBlock h =>
      obtain ⟨_, ts₁, h₁, h⟩ := Reader.mem_bind.mp (Reader.mem_of_whole? h)
      obtain ⟨_, ts₂, h₂, h⟩ := Reader.mem_bind.mp h
      obtain ⟨_, ts₃, h₃, h⟩ := Reader.mem_bind.mp h
      obtain ⟨_, ts₄, h₄, h⟩ := Reader.mem_bind.mp h
      obtain ⟨-, rfl⟩ := Reader.mem_pure.mp h
      exact (sealed_of_mem_group h₃ h₄).of_suffix
        ((Reader.LeavesEnd.text _ _ _ _ h₂).trans (Reader.LeavesEnd.skip _ _ _ _ h₁))
  | interface h =>
      obtain ⟨_, ts₁, h₁, h⟩ := Reader.mem_bind.mp (Reader.mem_of_whole? h)
      obtain ⟨_, ts₂, h₂, h⟩ := Reader.mem_bind.mp h
      obtain ⟨_, ts₃, h₃, h⟩ := Reader.mem_bind.mp h
      obtain ⟨_, ts₄, h₄, h⟩ := Reader.mem_bind.mp h
      obtain ⟨_, ts₅, h₅, h⟩ := Reader.mem_bind.mp h
      obtain ⟨_, ts₆, h₆, h⟩ := Reader.mem_bind.mp h
      obtain ⟨-, rfl⟩ := Reader.mem_pure.mp h
      exact (sealed_of_mem_typeEnd h₆).of_suffix <| (Reader.LeavesEnd.skip _ _ _ _ h₅).trans <|
        (Reader.LeavesEnd.bases _ _ _ h₄).trans <| (Reader.LeavesEnd.skip _ _ _ _ h₃).trans <|
        (Reader.LeavesEnd.nameBut _ _ _ _ h₂).trans (Reader.LeavesEnd.skip _ _ _ _ h₁)
  | method h => exact sealed_of_mem_method (Reader.mem_of_whole? h)
  | property h => exact sealed_of_mem_property (Reader.mem_of_whole? h)

/-! ### Beginnings -/

/-- The head of a member does not begin with a mark that goes on with the token in front. -/
theorem not_begins_of_memberHead {a : String × String} {rest ts : List Tree} {m : String}
    (hm : m ∈ "=" :: Token.touchy) (h : (a, rest) ∈ Reader.memberHead ts) : ¬ (Head.mark m).Begins ts := by
  intro hb
  obtain ⟨_, ts₁, h₁, h⟩ := Reader.mem_bind.mp h
  obtain ⟨_, ts₂, h₂, h⟩ := Reader.mem_bind.mp h
  have hpasses : ∀ m ∈ "=" :: Token.touchy, memberDecorations.passes (.mark m) = true := by decide
  have hrefuses : ∀ m ∈ "=" :: Token.touchy, memberType.refuses (.mark m) = true := by decide
  obtain rfl := eq_of_leaves hb (hpasses m hm) (Reader.mem_skip_iff.mp h₁)
  exact not_leaves hb (hrefuses m hm) (Reader.leaves_of_mem_text h₂)

/-- **A declaration does not begin** with a mark of which a phrase asks whether it touches what is in front
of it, and not with an equals sign either. -/
theorem not_begins (h : Stubs read scope run n) {m : String} (hm : m ∈ "=" :: Token.touchy) :
    ¬ (Head.mark m).Begins run := by
  cases h with
  | usingDirective h =>
      have hrefuses : ∀ m ∈ "=" :: Token.touchy,
          (usingDirectiveBut (usingKeywords scope)).refuses (.mark m) = true := by
        clear h
        cases scope <;> decide
      exact fun hb => not_leaves hb (hrefuses m hm) (leaves_nil_iff.mpr (List.contains_iff_mem.mp h))
  | namespaceBlock h =>
      obtain ⟨_, ts₁, h₁, h⟩ := Reader.mem_bind.mp (Reader.mem_of_whole? h)
      have hrefuses : ∀ m ∈ "=" :: Token.touchy, (the "namespace").refuses (.mark m) = true := by decide
      exact fun hb => not_leaves hb (hrefuses m hm) (Reader.mem_skip_iff.mp h₁)
  | interface h =>
      obtain ⟨_, ts₁, h₁, h⟩ := Reader.mem_bind.mp (Reader.mem_of_whole? h)
      have hrefuses : ∀ m ∈ "=" :: Token.touchy, (decorations ++ the "interface").refuses (.mark m) = true := by
        decide
      exact fun hb => not_leaves hb (hrefuses m hm) (Reader.mem_skip_iff.mp h₁)
  | method h =>
      obtain ⟨_, _, h₁, -⟩ := Reader.mem_bind.mp (Reader.mem_of_whole? h)
      exact not_begins_of_memberHead hm h₁
  | property h =>
      obtain ⟨_, _, h₁, -⟩ := Reader.mem_bind.mp (Reader.mem_of_whole? h)
      exact not_begins_of_memberHead hm h₁

end Stubs

end Node

/-! ### Bodies -/

/-- What closes bodies: braces, closed or not. -/
def bodyHeads : List Head :=
  [.group .curly, .mark closeBrace]

/-- The rules of types avoid the heads of bodies. -/
theorem avoidedBy_typeRules {h : Head} (hh : h ∈ bodyHeads) : AvoidedBy typeRules h := by
  have hall : ∀ h ∈ bodyHeads, ∀ r ∈ typeRules, r.phrase.avoids typeRules h = true := by decide
  exact hall h hh

namespace Reader

variable {α β : Type} {h : Head}

/-- A reader takes no tree with a head. -/
def Avoids (h : Head) (r : Reader α) : Prop :=
  ∀ (ts : List Tree) (a : α) (rest : List Tree), (a, rest) ∈ r ts → Without h ts rest

namespace Avoids

theorem pure (a : α) : Avoids h (Pure.pure a : Reader α) := fun _ _ _ hmem =>
  (mem_pure.mp hmem).2 ▸ .refl _

/-- Readers one after the other avoid what each of them avoids. -/
theorem bind {r : Reader α} {f : α → Reader β} (hr : Avoids h r) (hf : ∀ a, Avoids h (f a)) :
    Avoids h (r >>= f) := fun _ _ _ hmem => by
  obtain ⟨a, mid, ha, hb⟩ := mem_bind.mp hmem
  exact (hr _ _ _ ha).trans (hf a _ _ _ hb)

/-- A phrase that avoids a head avoids it as a reader. -/
theorem skip {p : Phrase} (hh : h ∈ bodyHeads) (hp : p.avoids typeRules h = true) :
    Avoids h (Reader.skip p) := fun _ _ _ hmem =>
  (mem_skip_iff.mp hmem).without (avoidedBy_typeRules hh) hp

theorem text {p : Phrase} (hh : h ∈ bodyHeads) (hp : p.avoids typeRules h = true) :
    Avoids h (Reader.text p) := fun _ _ _ hmem =>
  (leaves_of_mem_text hmem).without (avoidedBy_typeRules hh) hp

theorem nameBut (hh : h ∈ bodyHeads) (keywords : List String) : Avoids h (Reader.nameBut keywords) :=
  fun _ _ _ hmem => by
    obtain ⟨rfl, hholds⟩ := mem_nameBut.mp hmem
    refine .cons fun hof => ?_
    have hadmits := Head.admits_of_holds hof hholds
    rcases List.mem_cons.mp hh with rfl | hh
    · exact absurd hadmits Bool.false_ne_true
    · obtain rfl := List.mem_singleton.mp hh
      exact absurd hadmits Bool.false_ne_true

theorem peek : Avoids h Reader.peek := fun _ _ _ hmem => (mem_peek.mp hmem).2 ▸ .refl _

theorem next (mark : String) : Avoids h (Reader.next mark) := fun _ _ _ hmem =>
  (mem_next.mp hmem).2 ▸ .refl _

/-- Things between commas avoid what each of them avoids. -/
theorem separated (hh : h ∈ bodyHeads) {r : Reader α} (hr : Avoids h r) (bound : Nat) :
    Avoids h (Reader.separated r bound) := by
  have hcomma : ∀ h ∈ bodyHeads, (the ",").avoids typeRules h = true := by decide
  induction bound with
  | zero => exact fun _ _ _ hmem => absurd hmem List.not_mem_nil
  | succ bound ih =>
      refine hr.bind fun a => (next ",").bind fun more => ?_
      cases more with
      | true => exact (skip hh (hcomma h hh)).bind fun _ => ih.bind fun _ => pure _
      | false => exact pure _

/-- The bases of an interface avoid the heads of bodies. -/
theorem bases (hh : h ∈ bodyHeads) : Avoids h Reader.bases := by
  have hcolon : ∀ h ∈ bodyHeads, (the ":").avoids typeRules h = true := by decide
  have htype : ∀ h ∈ bodyHeads, (rule .type).avoids typeRules h = true := by decide
  have harguments : ∀ h ∈ bodyHeads, (parens (rule .arguments)).avoids typeRules h = true := by decide
  have htrees : Avoids h Reader.bases.trees := fun ts _ _ hmem => by
    obtain ⟨-, rfl⟩ := Prod.mk.inj (List.mem_singleton.mp hmem)
    exact .refl _
  refine (next ":").bind fun more => ?_
  cases more with
  | false => exact pure _
  | true =>
      rw [if_pos rfl]
      refine (skip hh (hcolon h hh)).bind fun _ => htrees.bind fun trees =>
        ((text hh (htype h hh)).separated hh _).bind fun types => peek.bind fun t => ?_
      split
      · exact (text hh (harguments h hh)).bind fun _ => pure _
      · exact pure _

end Avoids

end Reader

namespace Node

/-- What is in the body of a run: a group in braces at the end of the run, or nothing, if a semicolon
stands there instead. -/
inductive Body (run inner : List Tree) : Prop
  | braces {front : List Tree} {opening closing : Token} {after : List Tree}
      (hrun : run = front ++ .group .curly opening inner (.present closing) :: after)
      (hafter : after = [] ∨ ∃ t, after = [.token t] ∧ t.isText ";" = true)
  | semicolon {front : List Tree} {t : Token} (hrun : run = front ++ [.token t]) (ht : t.isText ";" = true)
      (hne : front ≠ []) (hfront : ∀ h ∈ bodyHeads, ∀ u ∈ front, ¬ h.of u) (hinner : inner = [])

variable {fuel : Nat} {rest run inner : List Tree}

/-- In front of the end there is a semicolon that touches, or nothing. -/
theorem eq_of_leaves_touching (h : Leaves fuel touchingSemicolon rest []) :
    rest = [] ∨ ∃ t, rest = [.token t] ∧ t.isText ";" = true := by
  rcases leaves_orElse.mp h with h | h
  · obtain ⟨t, rfl, ht, -⟩ := leaves_touching.mp h
    exact .inr ⟨t, rfl, ht⟩
  · exact .inl (leaves_absent.mp h).1.symm

/-- The body of a namespace is what is in its last braces. -/
theorem body_of_namespaceBlock {name : String}
    (h : Reader.whole? Reader.namespaceBlock run = some (name, inner)) : Body run inner := by
  obtain ⟨_, ts₁, h₁, h⟩ := Reader.mem_bind.mp (Reader.mem_of_whole? h)
  obtain ⟨_, ts₂, h₂, h⟩ := Reader.mem_bind.mp h
  obtain ⟨⟨g, inner', closing⟩, ts₃, h₃, h⟩ := Reader.mem_bind.mp h
  obtain ⟨_, ts₄, h₄, h⟩ := Reader.mem_bind.mp h
  obtain ⟨heq, rfl⟩ := Reader.mem_pure.mp h
  obtain ⟨-, rfl⟩ := Prod.mk.inj heq
  obtain ⟨opening, rfl, rfl⟩ := Reader.mem_group.mp h₃
  obtain ⟨front, rfl⟩ := (Reader.LeavesEnd.text _ _ _ _ h₂).trans (Reader.LeavesEnd.skip _ _ _ _ h₁)
  exact .braces rfl (eq_of_leaves_touching (Reader.mem_skip_iff.mp h₄))

/-- The body of an interface is what is in its last braces. -/
theorem body_of_interface {header : Interface}
    (h : Reader.whole? Reader.interface run = some (header, inner)) : Body run inner := by
  obtain ⟨_, ts₁, h₁, h⟩ := Reader.mem_bind.mp (Reader.mem_of_whole? h)
  obtain ⟨_, ts₂, h₂, h⟩ := Reader.mem_bind.mp h
  obtain ⟨_, ts₃, h₃, h⟩ := Reader.mem_bind.mp h
  obtain ⟨_, ts₄, h₄, h⟩ := Reader.mem_bind.mp h
  obtain ⟨_, ts₅, h₅, h⟩ := Reader.mem_bind.mp h
  obtain ⟨inner', ts₆, h₆, h⟩ := Reader.mem_bind.mp h
  obtain ⟨heq, rfl⟩ := Reader.mem_pure.mp h
  obtain ⟨-, rfl⟩ := Prod.mk.inj heq
  have hheader : ∀ h ∈ bodyHeads, Without h run ts₅ := by
    intro h hh
    have hdecorations : ∀ h ∈ bodyHeads, (decorations ++ the "interface").avoids typeRules h = true := by decide
    have hparameters : ∀ h ∈ bodyHeads, (Phrase.optional (typeParametersBut [])).avoids typeRules h = true := by
      decide
    have hconstraints : ∀ h ∈ bodyHeads, constraints.avoids typeRules h = true := by decide
    exact (Reader.Avoids.skip hh (hdecorations h hh) _ _ _ h₁).trans <|
      (Reader.Avoids.nameBut hh _ _ _ _ h₂).trans <|
      (Reader.Avoids.skip hh (hparameters h hh) _ _ _ h₃).trans <|
      (Reader.Avoids.bases hh _ _ _ h₄).trans (Reader.Avoids.skip hh (hconstraints h hh) _ _ _ h₅)
  -- The name alone makes what is in front of the end longer than nothing.
  have hshort : ts₅.length < run.length := by
    obtain ⟨rfl, -⟩ := Reader.mem_nameBut.mp h₂
    have hname := (Reader.LeavesEnd.skip _ _ _ _ h₁).length_le
    have hend := ((Reader.LeavesEnd.skip _ _ _ _ h₅).trans <| (Reader.LeavesEnd.bases _ _ _ h₄).trans
      (Reader.LeavesEnd.skip _ _ _ _ h₃)).length_le
    simp only [List.length_cons] at hname
    omega
  obtain ⟨isEmpty, ts₇, h₇, h₆⟩ := Reader.mem_bind.mp h₆
  obtain ⟨-, rfl⟩ := Reader.mem_next.mp h₇
  cases isEmpty with
  | true =>
      obtain ⟨_, ts₈, h₈, h₆⟩ := Reader.mem_bind.mp h₆
      obtain ⟨rfl, rfl⟩ := Reader.mem_pure.mp h₆
      obtain ⟨t, rfl, ht⟩ := leaves_one.mp (Reader.mem_skip_iff.mp h₈)
      obtain ⟨front, rfl, -⟩ := hheader (.group .curly) (by decide)
      refine .semicolon rfl ht (fun hnil => ?_) (fun h hh u hu => ?_) rfl
      · simp [hnil] at hshort
      · obtain ⟨front', heq, hfront⟩ := hheader h hh
        exact hfront u (List.append_cancel_right heq ▸ hu)
  | false =>
      obtain ⟨⟨g, inner', closing⟩, ts₈, h₈, h₆⟩ := Reader.mem_bind.mp h₆
      obtain ⟨_, ts₉, h₉, h₆⟩ := Reader.mem_bind.mp h₆
      obtain ⟨rfl, rfl⟩ := Reader.mem_pure.mp h₆
      obtain ⟨opening, rfl, rfl⟩ := Reader.mem_group.mp h₈
      obtain ⟨front, rfl, -⟩ := hheader (.group .curly) (by decide)
      exact .braces rfl (eq_of_leaves_touching (Reader.mem_skip_iff.mp h₉))

end Node

end InteropStubs
