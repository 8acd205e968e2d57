import InteropStubs.Proofs.Node.Place
import InteropStubs.Proofs.Token.Source

/-!
# The characters of nodes

Every name and every text in a node is a token of the source, or a stretch of it. So what holds of all
characters of a source holds of all characters in its nodes (`Node.writtenIn_of_mem`).
-/

namespace InteropStubs

variable {P : Char → Prop}

/-- All characters of a text have a property. -/
def WrittenIn (P : Char → Prop) (text : String) : Prop :=
  ∀ c ∈ text.toList, P c

@[simp] theorem writtenIn_empty : WrittenIn P "" := nofun

/-- A text of two parts is written in characters if both parts are. -/
@[simp] theorem writtenIn_append (a b : String) :
    WrittenIn P (a ++ b) ↔ WrittenIn P a ∧ WrittenIn P b := by
  simp [WrittenIn, or_imp, forall_and]

/-- A text of many parts is written in characters if all of them are. -/
theorem writtenIn_join {texts : List String} (h : ∀ text ∈ texts, WrittenIn P text) :
    WrittenIn P (String.join texts) := by
  induction texts with
  | nil => simp
  | cons text texts ih =>
      rw [String.join_cons, writtenIn_append]
      exact ⟨h _ List.mem_cons_self, ih fun t ht => h t (List.mem_cons_of_mem _ ht)⟩

/-! ### Tokens and trees -/

/-- A token and the gap in front of it. -/
structure Token.WrittenIn (P : Char → Prop) (t : Token) : Prop where
  text : InteropStubs.WrittenIn P t.text
  gap : InteropStubs.WrittenIn P t.gapText

/-- The tokens of a text are written in its characters. -/
theorem Token.CutFrom.writtenIn {start : Nat} {cs : List Char} {ts : List Token} (h : CutFrom start cs ts)
    (hcs : ∀ c ∈ cs, P c) : ∀ t ∈ ts, t.WrittenIn P := by
  induction h with
  | nil => exact nofun
  | cons hne hstart heq hrest ih =>
      simp only [heq, List.mem_append, or_imp, forall_and] at hcs
      obtain ⟨hgap, htext, hafter⟩ := hcs
      exact List.forall_mem_cons.mpr ⟨⟨htext, hgap⟩, ih hafter⟩

/-- The text of tokens is written in their characters. -/
theorem Token.writtenIn_verbatim {ts : List Token} (h : ∀ t ∈ ts, t.WrittenIn P) :
    InteropStubs.WrittenIn P (verbatim ts) := by
  cases ts with
  | nil => exact writtenIn_empty
  | cons t ts =>
      obtain ⟨ht, hts⟩ := List.forall_mem_cons.mp h
      refine (writtenIn_append _ _).mpr ⟨ht.text, writtenIn_join fun text htext => ?_⟩
      obtain ⟨u, hu, rfl⟩ := List.mem_map.mp htext
      exact (writtenIn_append _ _).mpr ⟨(hts u hu).gap, (hts u hu).text⟩

/-- All tokens of some trees. -/
def Tree.WrittenIn (P : Char → Prop) (ts : List Tree) : Prop :=
  ∀ t ∈ tokensAll ts, t.WrittenIn P

namespace Tree.WrittenIn

variable {ts us : List Tree}

/-- The trees of a list are written in characters one by one. -/
theorem cons_iff {t : Tree} : Tree.WrittenIn P (t :: ts) ↔ Tree.WrittenIn P [t] ∧ Tree.WrittenIn P ts := by
  simp [Tree.WrittenIn, or_imp, forall_and]

/-- Trees in between are written in the same characters. -/
theorem of_infix (h : Tree.WrittenIn P us) (hts : ts <:+: us) : Tree.WrittenIn P ts :=
  fun t ht => h t ((tokensAll_isInfix hts).subset ht)

/-- The text of trees is written in their characters. -/
theorem verbatim (h : Tree.WrittenIn P ts) : InteropStubs.WrittenIn P (Tree.verbatim ts) :=
  Token.writtenIn_verbatim h

/-- What is in a group is written in its characters. -/
theorem inner {b : Bracket} {opening : Token} {closing : Closing}
    (h : Tree.WrittenIn P [.group b opening ts closing]) : Tree.WrittenIn P ts :=
  fun t ht => h t ((tokensAll_isInfix_of_mem List.mem_cons_self).subset ht)

end Tree.WrittenIn

/-! ### Readers -/

namespace Reader

variable {α β : Type} {Q : α → Prop} {R : β → Prop}

/-- Whatever is read from trees that are written in some characters satisfies `Q`. -/
def Yields (P : Char → Prop) (r : Reader α) (Q : α → Prop) : Prop :=
  ∀ ts a rest, Tree.WrittenIn P ts → (a, rest) ∈ r ts → Q a

namespace Yields

theorem pure {a : α} (h : Q a) : Yields P (Pure.pure a : Reader α) Q := fun _ _ _ _ ha =>
  (mem_pure.mp ha).1 ▸ h

/-- What is read first, and what is read behind it with any such result. -/
theorem bind {r : Reader α} {f : α → Reader β} (hend : LeavesEnd r) (hr : Yields P r Q)
    (hf : ∀ a, Q a → Yields P (f a) R) : Yields P (r >>= f) R := fun ts b rest hts hb => by
  obtain ⟨a, mid, ha, hb⟩ := mem_bind.mp hb
  exact hf a (hr ts a mid hts ha) mid b rest (hts.of_infix (hend _ _ _ ha).isInfix) hb

/-- What one of two readers yields. -/
theorem orElse {r s : Reader α} (hr : Yields P r Q) (hs : Yields P s Q) : Yields P (r <|> s) Q :=
  fun ts a rest hts ha => (mem_orElse.mp ha).elim (hr ts a rest hts) (hs ts a rest hts)

/-- What is passed over leaves no trace. -/
theorem trivial (r : Reader α) : Yields P r fun _ => True := fun _ _ _ _ _ => True.intro

theorem skip {p : Phrase} {f : Unit → Reader β} (hf : Yields P (f ()) R) :
    Yields P (Reader.skip p >>= f) R :=
  (trivial _).bind (.skip p) fun _ _ => hf

/-- The text of a phrase is written in the characters of the trees. -/
theorem text (p : Phrase) : Yields P (Reader.text p) (WrittenIn P) := fun ts _ _ hts ha => by
  obtain ⟨n, -, rfl, -⟩ := mem_text.mp ha
  exact (hts.of_infix (List.take_prefix n ts).isInfix).verbatim

/-- A name is written in them. -/
theorem nameBut (keywords : List String) :
    Yields P (Reader.nameBut keywords) fun t => WrittenIn P t.text := fun ts t _ hts ha => by
  obtain ⟨rfl, -⟩ := mem_nameBut.mp ha
  exact ((Tree.WrittenIn.cons_iff.mp hts).1 t (by simp [Tree.tokens])).text

/-- A group and what is in it are written in them. -/
theorem group (b : Bracket) : Yields P (Reader.group b) fun g =>
    Tree.WrittenIn P [g.1] ∧ Tree.WrittenIn P g.2.1 := fun ts ⟨g, inner, closing⟩ _ hts ha => by
  obtain ⟨opening, rfl, rfl⟩ := mem_group.mp ha
  have hgroup := (Tree.WrittenIn.cons_iff.mp hts).1
  exact ⟨hgroup, hgroup.inner⟩

theorem longest {r : Reader α} (hr : Yields P r Q) : Yields P (Reader.longest r) Q :=
  fun ts a rest hts ha => hr ts a rest hts (mem_of_mem_longest ha)

/-- Of things between commas each is one that the reader yields. -/
theorem separated {r : Reader α} (hend : LeavesEnd r) (hr : Yields P r Q) (bound : Nat) :
    Yields P (Reader.separated r bound) fun as => ∀ a ∈ as, Q a := by
  induction bound with
  | zero => exact fun _ _ _ _ ha => absurd ha List.not_mem_nil
  | succ bound ih =>
      refine hr.bind hend fun a ha => (trivial _).bind (.next ",") fun more _ => ?_
      cases more with
      | true =>
          exact skip <| ih.bind (hend.separated bound) fun as has =>
            pure (List.forall_mem_cons.mpr ⟨ha, has⟩)
      | false => exact pure (by simpa using ha)

/-- Of things up to the end each is one that the reader yields. -/
theorem untilEnd {r : Reader α} (hend : LeavesEnd r) (hr : Yields P r Q) (bound : Nat) :
    Yields P (Reader.untilEnd r bound) fun as => ∀ a ∈ as, Q a := by
  induction bound with
  | zero => exact pure nofun
  | succ bound ih =>
      refine (trivial _).bind .peek fun t _ => ?_
      cases t with
      | none => exact pure nofun
      | some t =>
          refine hr.bind hend fun a ha => fun ts as rest hts h => ?_
          obtain ⟨as', mid, has, h⟩ := mem_bind.mp h
          obtain ⟨rfl, -⟩ := mem_pure.mp h
          exact List.forall_mem_cons.mpr ⟨ha, ih ts as' mid hts has⟩

/-- What is read from a whole list is something that the reader yields. -/
theorem whole? {r : Reader α} (hr : Yields P r Q) {ts : List Tree} (hts : Tree.WrittenIn P ts) {a : α}
    (h : Reader.whole? r ts = some a) : Q a :=
  hr ts a [] hts (mem_of_whole? h)

end Yields

end Reader

/-! ### Declarations -/

/-- A parameter is written with some characters. -/
structure Parameter.WrittenIn (P : Char → Prop) (p : Parameter) : Prop where
  type : InteropStubs.WrittenIn P p.type
  name : InteropStubs.WrittenIn P p.name

structure Method.WrittenIn (P : Char → Prop) (m : Method) : Prop where
  name : InteropStubs.WrittenIn P m.name
  returns : InteropStubs.WrittenIn P m.returns
  parameters : ∀ p ∈ m.parameters, p.WrittenIn P
  parameterList : InteropStubs.WrittenIn P m.parameterList

structure Property.WrittenIn (P : Char → Prop) (p : Property) : Prop where
  name : InteropStubs.WrittenIn P p.name
  type : InteropStubs.WrittenIn P p.type
  accessors : ∀ word ∈ p.accessors, InteropStubs.WrittenIn P word

structure Interface.WrittenIn (P : Char → Prop) (i : Interface) : Prop where
  name : InteropStubs.WrittenIn P i.name
  bases : ∀ bases ∈ i.bases, ∀ base ∈ bases, InteropStubs.WrittenIn P base

namespace Reader.Yields

open Phrase Rule

/-- A parameter with a type is written in the characters of the trees. -/
theorem typedParameter : Yields P Reader.typedParameter (Parameter.WrittenIn P) := by
  refine longest (orElse (skip ?_) ?_)
  · exact (text _).bind (.text _) fun written hwritten =>
      (nameBut _).bind (.nameBut _) fun name hname => pure ⟨hwritten, hname⟩
  · exact (nameBut _).bind (.nameBut _) fun name hname => pure ⟨writtenIn_empty, hname⟩

/-- The parameters behind `params` are. -/
theorem collectingParameter (closing : Token) :
    Yields P (Reader.collectingParameter closing) fun kept => ∀ p ∈ kept, p.WrittenIn P := by
  refine (text _).bind (.text _) fun _ hwritten => (nameBut _).bind (.nameBut _) fun _ hname =>
    (trivial _).bind .peek fun following _ => ?_
  dsimp only
  split
  · exact pure nofun
  · refine pure fun p hp => ?_
    obtain rfl := Option.some.inj hp
    refine ⟨?_, hname⟩
    split
    · exact writtenIn_empty
    · exact hwritten

/-- A parameter is. -/
theorem parameter (closing : Token) :
    Yields P (Reader.parameter closing) fun kept => ∀ p ∈ kept, p.WrittenIn P := by
  refine skip ((trivial _).bind (.next _) fun marked _ => ?_)
  cases marked with
  | true => exact skip (collectingParameter closing)
  | false =>
      refine fun ts kept rest hts h => ?_
      obtain ⟨p, mid, hp, h⟩ := mem_bind.mp h
      obtain ⟨_, last, -, h⟩ := mem_bind.mp h
      obtain ⟨rfl, -⟩ := mem_pure.mp h
      exact fun q hq => Option.some.inj hq ▸ typedParameter ts p mid hts hp

/-- **The parameters of a list** are written in the characters of the trees in it. -/
theorem parameters? {inner : List Tree} {closing : Token} {ps : List Parameter}
    (hinner : Tree.WrittenIn P inner) (h : Reader.parameters? inner closing = some ps) :
    ∀ p ∈ ps, p.WrittenIn P := by
  unfold Reader.parameters? at h
  split at h
  · obtain rfl := Option.some.inj h
    exact nofun
  · obtain ⟨kept, hkept, rfl⟩ := Option.map_eq_some_iff.mp h
    intro p hp
    obtain ⟨k, hk, hp⟩ := List.mem_filterMap.mp hp
    exact whole? (separated (.parameter closing) (parameter closing) _) hinner hkept k hk p hp

/-- The type and the name of a member are. -/
theorem memberHead : Yields P Reader.memberHead fun head => WrittenIn P head.1 ∧ WrittenIn P head.2 :=
  skip <| (text _).bind (.text _) fun _ hwritten => skip <|
    (nameBut _).bind (.nameBut _) fun _ hname => pure ⟨hwritten, hname⟩

/-- **A method** is written in the characters of its trees. -/
theorem method : Yields P Reader.method (Method.WrittenIn P) := by
  refine memberHead.bind .memberHead fun ⟨returns, name⟩ ⟨hreturns, hname⟩ => skip <|
    (group _).bind (.group _) fun ⟨list, inner, closing⟩ ⟨hlist, hinner⟩ => ?_
  intro ts m rest _ h
  obtain ⟨ps, us, hps, h⟩ := mem_bind.mp h
  obtain ⟨_, vs, -, h⟩ := mem_bind.mp h
  obtain ⟨rfl, -⟩ := mem_pure.mp h
  exact ⟨hname, hreturns, parameters? hinner (mem_given.mp hps).1, hlist.verbatim⟩

/-- An accessor is. -/
theorem accessor : Yields P Reader.accessor (WrittenIn P) :=
  skip <| (nameBut _).bind (.nameBut _) fun _ hword => skip (pure hword)

/-- The words of the accessors are. -/
theorem accessors? {inner : List Tree} {words : List String} (hinner : Tree.WrittenIn P inner)
    (h : Reader.accessors? inner = some words) : ∀ word ∈ words, WrittenIn P word := by
  obtain ⟨all, hall, rfl⟩ := Option.map_eq_some_iff.mp h
  exact fun word hword => whole? (untilEnd .accessor accessor _) hinner hall word (List.mem_filter.mp hword).1

/-- **A property** is. -/
theorem property : Yields P Reader.property (Property.WrittenIn P) := by
  refine memberHead.bind .memberHead fun ⟨written, name⟩ ⟨hwritten, hname⟩ =>
    (trivial _).bind (.next _) fun arrow _ => ?_
  cases arrow with
  | true => exact skip (pure ⟨hname, hwritten, nofun⟩)
  | false =>
      refine (group _).bind (.group _) fun ⟨_, inner, _⟩ ⟨_, hinner⟩ => ?_
      intro ts p rest _ h
      obtain ⟨words, us, hwords, h⟩ := mem_bind.mp h
      obtain ⟨_, vs, -, h⟩ := mem_bind.mp h
      obtain ⟨rfl, -⟩ := mem_pure.mp h
      exact ⟨hname, hwritten, accessors? hinner (mem_given.mp hwords).1⟩

/-- The bases of an interface are. -/
theorem bases : Yields P Reader.bases fun found => ∀ bases ∈ found, ∀ base ∈ bases, WrittenIn P base := by
  refine (trivial _).bind (.next _) fun more _ => ?_
  cases more with
  | false => exact pure nofun
  | true =>
      refine skip <| (trivial _).bind .trees fun trees _ =>
        (separated (.text _) (text _) _).bind (.separated (.text _) _) fun types htypes => ?_
      refine (trivial _).bind .peek fun t _ => ?_
      split
      · refine (text _).bind (.text _) fun arguments harguments => pure fun bases hbases => ?_
        obtain rfl := Option.some.inj hbases
        exact List.forall_mem_append.mpr ⟨htypes, by simpa using harguments⟩
      · exact pure fun bases hbases => Option.some.inj hbases ▸ htypes

/-- **The header of an interface** is. -/
theorem interface : Yields P Reader.interface fun found => found.1.WrittenIn P :=
  skip <| (nameBut _).bind (.nameBut _) fun _ hname => skip <| bases.bind .bases fun _ hbases => skip <|
    fun ts found rest _ h => by
      obtain ⟨inner, us, -, h⟩ := mem_bind.mp h
      obtain ⟨rfl, -⟩ := mem_pure.mp h
      exact ⟨hname, hbases⟩

/-- The name of a namespace is. -/
theorem namespaceBlock : Yields P Reader.namespaceBlock fun found => WrittenIn P found.1 :=
  skip <| (text _).bind (.text _) fun _ hname => fun ts found rest _ h => by
    obtain ⟨_, us, -, h⟩ := mem_bind.mp h
    obtain ⟨_, vs, -, h⟩ := mem_bind.mp h
    obtain ⟨rfl, -⟩ := mem_pure.mp h
    exact hname

end Reader.Yields

/-! ### Nodes -/

namespace Node

/-- What is kept of a node is written with some characters. -/
def WrittenIn (P : Char → Prop) : Node → Prop
  | namespaceBlock span name _ => InteropStubs.WrittenIn P span.text ∧ InteropStubs.WrittenIn P name
  | interface span header _ => InteropStubs.WrittenIn P span.text ∧ header.WrittenIn P
  | method span m => InteropStubs.WrittenIn P span.text ∧ m.WrittenIn P
  | property span p => InteropStubs.WrittenIn P span.text ∧ p.WrittenIn P
  | usingDirective span | other span _ _ => InteropStubs.WrittenIn P span.text
  | error .. | missing .. => True

/-- What is kept of a run in its node is written in the characters of the run. -/
theorem ReadFrom.writtenIn {run : List Tree} {n : Node} (h : n.ReadFrom run) (hrun : Tree.WrittenIn P run) :
    n.WrittenIn P := by
  have hspan : InteropStubs.WrittenIn P n.span.text := by
    rw [h.span]
    exact hrun.verbatim
  have hkeeps := h.keeps
  cases n with
  | namespaceBlock _ name _ =>
      obtain ⟨inner, hinner⟩ := hkeeps
      exact ⟨hspan, Reader.Yields.namespaceBlock.whole? hrun hinner⟩
  | interface _ header _ =>
      obtain ⟨inner, hinner⟩ := hkeeps
      exact ⟨hspan, Reader.Yields.interface.whole? hrun hinner⟩
  | method _ m => exact ⟨hspan, Reader.Yields.method.whole? hrun hkeeps⟩
  | property _ p => exact ⟨hspan, Reader.Yields.property.whole? hrun hkeeps⟩
  | usingDirective | other => exact hspan
  | error | missing => exact True.intro

/-- **The nodes of a faultless file are written with the characters of the file.** -/
theorem writtenIn_of_mem {cs : List Char} (hcs : ∀ c ∈ cs, P c)
    (h : anyHasError (ofTrees (Tree.ofTokens (Token.ofChars cs))) = false) :
    ∀ n ∈ all (ofTrees (Tree.ofTokens (Token.ofChars cs))), n.WrittenIn P := by
  intro n hn
  obtain ⟨run, hrun, hread⟩ := (located_ofTrees h).runs n hn
  rw [Tree.tokensAll_ofTokens] at hrun
  exact hread.writtenIn fun t ht => (Token.cutFrom_ofChars cs).writtenIn hcs t (hrun.subset ht)

end Node

end InteropStubs
