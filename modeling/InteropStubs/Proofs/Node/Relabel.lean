import InteropStubs.Proofs.Node.Reading
import InteropStubs.Proofs.Phrase.Avoid
import InteropStubs.Proofs.Phrase.Relabel

/-!
# What readers do not see

Readers look at trees through phrases and keep texts as they are written, gaps included. So what is read of
relabelled trees is what was read of the trees, if the gaps inside the texts stay: of a declaration, these
are all gaps but the one in front of it and those in its braces (`Tree.Steady`).

* `Reader.relabels_method`, `Reader.relabels_property`: the members of an interface.
* `Reader.relabels_namespaceBlock`, `Reader.relabels_interface`: what has a body, where the body is
  relabelled, too.
-/

namespace InteropStubs

/-- A relabelling keeps the gaps in front of some tokens. -/
def Relabelling.Fixes (φ : Relabelling) (us : List Token) : Prop :=
  ∀ u ∈ us, (φ u).gap = u.gap

/-- A relabelling that keeps the gaps of tokens, but of the first, keeps their text. -/
theorem Token.verbatim_map {φ : Relabelling} {us : List Token} (h : φ.Fixes us.tail) :
    verbatim (us.map φ) = verbatim us := by
  cases us with
  | nil => rfl
  | cons u us =>
      have hgap : ∀ v ∈ us, (φ v).gapText = v.gapText := fun v hv => by
        rw [gapText, h v hv, gapText]
      simp only [List.map_cons, verbatim, φ.text, List.map_map]
      congr 2
      exact List.map_congr_left fun v hv => by simp [hgap v hv]

namespace Tree

/-- Whether a tree is a closed group in braces. -/
def isBraces : Tree → Bool
  | group .curly _ _ (.present _) => true
  | _ => false

/-- A tree in braces has the head of one. -/
theorem isBraces_iff {t : Tree} : t.isBraces = true ↔ (Head.group .curly).of t := by
  cases t with
  | token => simp [isBraces, Head.of]
  | group b _ _ closing => cases b <;> cases closing <;> simp [isBraces, Head.of]

variable {φ : Relabelling} {ts us : List Tree}

variable (φ) in
/-- A relabelling keeps all gaps in some trees. -/
def Fixed (ts : List Tree) : Prop :=
  φ.Fixes (tokensAll ts)

variable (φ) in
/-- A relabelling keeps the gaps in some trees, but for the first one and those in braces. -/
def Steady (ts : List Tree) : Prop :=
  φ.Fixes (tokensAll (ts.filter fun t => !t.isBraces)).tail

/-- What is fixed is fixed from any place on. -/
theorem Fixed.of_suffix (h : Fixed φ ts) (hus : us <:+ ts) : Fixed φ us := by
  obtain ⟨front, rfl⟩ := hus
  exact fun u hu => h u (by simp [hu])

/-- What is steady is steady from any place on. -/
theorem Steady.of_suffix (h : Steady φ ts) (hus : us <:+ ts) : Steady φ us := by
  have hsuffix : tokensAll (us.filter fun t => !t.isBraces) <:+ tokensAll (ts.filter fun t => !t.isBraces) := by
    obtain ⟨front, rfl⟩ := hus
    rw [List.filter_append, tokensAll_append]
    exact List.suffix_append _ _
  exact fun u hu => h u (hsuffix.sublist.tail.subset hu)

/-- What is written in some trees, where the gaps in them stay. -/
theorem Fixed.verbatim (h : Fixed φ ts) (n : Nat) :
    Tree.verbatim ((ts.take n).map (relabel φ)) = Tree.verbatim (ts.take n) := by
  rw [Tree.verbatim, tokensAll_relabel, Token.verbatim_map fun u hu => h u ?_, Tree.verbatim]
  rw [← List.take_append_drop n ts, tokensAll_append]
  exact List.mem_append_left _ (List.mem_of_mem_tail hu)

/-- Steady trees in front of any braces keep their text. -/
theorem Steady.verbatim (h : Steady φ ts) {n : Nat} (hn : ∀ t ∈ ts.take n, ¬ (Head.group .curly).of t) :
    Tree.verbatim ((ts.take n).map (relabel φ)) = Tree.verbatim (ts.take n) := by
  have hfilter : (ts.take n).filter (fun t => !t.isBraces) = ts.take n :=
    List.filter_eq_self.mpr fun t ht => by
      simpa [← isBraces_iff] using hn t ht
  have hfront : tokensAll (ts.take n) <+: tokensAll (ts.filter fun t => !t.isBraces) := by
    have hsplit := congrArg (fun us => tokensAll (us.filter fun t => !t.isBraces)) (List.take_append_drop n ts)
    simp only [List.filter_append, hfilter, tokensAll_append] at hsplit
    exact hsplit ▸ List.prefix_append _ _
  rw [Tree.verbatim, tokensAll_relabel, Token.verbatim_map fun u hu => h u (hfront.sublist.tail.subset hu), Tree.verbatim]

/-- The gaps in a group that is not in braces stay. -/
theorem Steady.group {b : Bracket} {opening : Token} {inner : List Tree} {closing : Closing}
    (h : Steady φ (.group b opening inner closing :: ts)) (hb : b ≠ .curly) :
    φ.Fixes (tokensAll inner ++ closing.tokens) := by
  have hbraces : isBraces (.group b opening inner closing) = false := by
    unfold isBraces
    split <;> simp_all
  intro u hu
  refine h u ?_
  rw [List.filter_cons_of_pos (by simp [hbraces]), tokensAll, tokens]
  exact List.mem_append_left _ hu

end Tree

namespace Reader

open Phrase Rule

variable {α β γ δ : Type} {φ : Relabelling} {ts : List Tree}

/-- What a reader finds in relabelled trees comes from what another finds in the trees. -/
def Relabels (φ : Relabelling) (f : α → β) (r : Reader α) (r' : Reader β) (ts : List Tree) : Prop :=
  r' (ts.map (Tree.relabel φ)) = (r ts).map fun result => (f result.1, result.2.map (Tree.relabel φ))

namespace Relabels

theorem pure (f : α → β) (a : α) : Relabels φ f (Pure.pure a) (Pure.pure (f a)) ts := rfl

/-- Readers one after the other read relabelled trees alike, if each of them does. -/
theorem bind {f : α → β} {g : γ → δ} {r : Reader α} {r' : Reader β} {k : α → Reader γ} {k' : β → Reader δ}
    (hr : Relabels φ f r r' ts)
    (hk : ∀ a mid, (a, mid) ∈ r ts → Relabels φ g (k a) (k' (f a)) mid) :
    Relabels φ g (r >>= k) (r' >>= k') ts := by
  show (r' (ts.map (Tree.relabel φ))).flatMap (fun a => k' a.1 a.2) =
    ((r ts).flatMap fun a => k a.1 a.2).map _
  rw [hr, List.flatMap_map, List.map_flatMap]
  exact List.flatMap_congr fun a ha => hk a.1 a.2 ha

/-- The same, where the value read first is not changed. -/
theorem next {g : γ → δ} {r r' : Reader α} {k : α → Reader γ} {k' : α → Reader δ}
    (hr : Relabels φ id r r' ts) (hk : ∀ a mid, (a, mid) ∈ r ts → Relabels φ g (k a) (k' a) mid) :
    Relabels φ g (r >>= k) (r' >>= k') ts :=
  hr.bind hk

/-- One of two readers does. -/
theorem orElse {f : α → β} {r s : Reader α} {r' s' : Reader β} (hr : Relabels φ f r r' ts)
    (hs : Relabels φ f s s' ts) : Relabels φ f (r <|> s) (r' <|> s') ts := by
  show r' (ts.map (Tree.relabel φ)) ++ s' (ts.map (Tree.relabel φ)) = (r ts ++ s ts).map _
  rw [hr, hs, List.map_append]

/-- A phrase that does not look at gaps is skipped alike. -/
theorem skip {p : Phrase} (hp : p.isDiscreet = true) (ts : List Tree) :
    Relabels φ id (Reader.skip p) (Reader.skip p) ts := by
  simp only [Relabels, Reader.skip, sizes_relabel φ hp, List.map_map, Function.comp_def, List.map_drop, id]

/-- Its text is the same where the trees keep their text. -/
theorem text {p : Phrase} (hp : p.isDiscreet = true)
    (hts : ∀ n ∈ p.sizes ts, Tree.verbatim ((ts.take n).map (Tree.relabel φ)) = Tree.verbatim (ts.take n)) :
    Relabels φ id (Reader.text p) (Reader.text p) ts := by
  have htext (us : List Tree) :
      Reader.text p us = (p.sizes us).map fun n => (Tree.verbatim (us.take n), us.drop n) := by
    show (take p us).flatMap (fun result => [(Tree.verbatim result.1, result.2)]) = _
    simp only [take, List.flatMap_map, List.splitAt_eq]
    exact List.map_eq_flatMap.symm
  simp only [Relabels, htext, sizes_relabel φ hp, List.map_map]
  refine List.map_congr_left fun n hn => ?_
  simp only [Function.comp_apply, ← List.map_take, ← List.map_drop, hts n hn, id]

/-- A name is the relabelled one. -/
theorem nameBut (keywords : List String) (ts : List Tree) :
    Relabels φ φ (Reader.nameBut keywords) (Reader.nameBut keywords) ts := by
  unfold Relabels Reader.nameBut
  rcases ts with _ | ⟨t | _, ts⟩
  · rfl
  · simp only [List.map_cons, Tree.relabel_token, φ.holds]
    split <;> rfl
  · simp

/-- A group is the relabelled one, with what is in it. -/
theorem group (b : Bracket) (ts : List Tree) :
    Relabels φ (fun g => (g.1.relabel φ, g.2.1.map (Tree.relabel φ), φ g.2.2))
      (Reader.group b) (Reader.group b) ts := by
  unfold Relabels Reader.group
  rcases ts with _ | ⟨_ | ⟨_, _, _, _ | _⟩, ts⟩
  · rfl
  · simp
  · simp only [List.map_cons, Tree.relabel_group, Closing.relabel]
    split <;> simp [Closing.relabel]
  · simp [Closing.relabel]

theorem peek (ts : List Tree) : Relabels φ (Option.map (Tree.relabel φ)) Reader.peek Reader.peek ts := by
  simp [Relabels, Reader.peek]

/-- A mark is asked for alike. -/
theorem isNext (mark : String) (ts : List Tree) :
    Relabels φ id (Reader.next mark) (Reader.next mark) ts := by
  refine (peek ts).bind fun t mid _ => ?_
  have hany : (t.map (Tree.relabel φ)).any (Tree.isText mark) = t.any (Tree.isText mark) := by
    cases t <;> simp
  rw [hany]
  exact .pure id _

theorem given {o o' : Option α} (ho : o' = o) (ts : List Tree) :
    Relabels φ id (Reader.given o) (Reader.given o') ts := by
  simp [Relabels, Reader.given, ho, Function.comp_def]

theorem longest {f : α → β} {r : Reader α} {r' : Reader β} (hr : Relabels φ f r r' ts) :
    Relabels φ f (Reader.longest r) (Reader.longest r') ts := by
  unfold Relabels at hr
  simp only [Relabels, Reader.longest, hr, List.find?_map, List.all_map, Function.comp_def, List.length_map,
    Option.toList_map]

/-- Things between commas are read alike, one by one. -/
theorem separated {f : α → β} {r : Reader α} {r' : Reader β} (hl : LeavesEnd r)
    (hr : ∀ us, us <:+ ts → Relabels φ f r r' us) (bound : Nat) :
    ∀ us, us <:+ ts →
      Relabels φ (List.map f) (Reader.separated r bound) (Reader.separated r' bound) us := by
  induction bound with
  | zero => exact fun _ _ => rfl
  | succ bound ih =>
      intro us hus
      refine (hr us hus).bind fun a ts₁ h₁ => (isNext "," ts₁).next fun more ts₂ h₂ => ?_
      have hts₂ := (LeavesEnd.next _ _ _ _ h₂).trans ((hl _ _ _ h₁).trans hus)
      cases more with
      | false => exact .pure _ _
      | true =>
          refine (skip (by decide) ts₂).next fun _ ts₃ h₃ => ?_
          exact (ih ts₃ ((LeavesEnd.skip _ _ _ _ h₃).trans hts₂)).bind fun _ _ _ => .pure _ _

/-- Things up to the end are read alike, one by one. -/
theorem untilEnd {f : α → β} {r : Reader α} {r' : Reader β} (hr : ∀ us, Relabels φ f r r' us) (bound : Nat) :
    ∀ us, Relabels φ (List.map f) (Reader.untilEnd r bound) (Reader.untilEnd r' bound) us := by
  induction bound with
  | zero => exact fun _ => rfl
  | succ bound ih =>
      intro us
      refine (peek us).bind fun t ts₁ _ => ?_
      cases t with
      | none => exact .pure _ _
      | some t => exact (hr ts₁).bind fun a ts₂ _ => (ih ts₂).bind fun _ _ _ => .pure _ _

/-- **A whole list** is read alike. -/
theorem whole? {f : α → β} {r : Reader α} {r' : Reader β} (hr : Relabels φ f r r' ts) :
    Reader.whole? r' (ts.map (Tree.relabel φ)) = (Reader.whole? r ts).map f := by
  unfold Relabels at hr
  simp only [Reader.whole?, hr, List.find?_map, Option.map_map, Function.comp_def, List.isEmpty_map]

end Relabels

/-! ### Parameters -/

theorem afterTrivia_eq {t : Token} (h : (φ t).gap = t.gap) : (φ t).afterTrivia = t.afterTrivia := by
  rw [Token.afterTrivia, h, Token.afterTrivia]

/-- A parameter with a type is read alike. -/
theorem relabels_typedParameter (hts : Tree.Fixed φ ts) : Relabels φ id typedParameter typedParameter ts := by
  refine .longest (.orElse ?_ ?_)
  · refine (Relabels.skip (by decide) ts).next fun _ ts₁ h₁ => ?_
    have hts₁ := hts.of_suffix (LeavesEnd.skip _ _ _ _ h₁)
    refine (Relabels.text (by decide) fun n _ => hts₁.verbatim n).next fun written ts₂ _ => ?_
    refine (Relabels.nameBut [] ts₂).bind fun name _ _ => ?_
    rw [φ.text]
    exact .pure id _
  · refine (Relabels.nameBut _ ts).bind fun name _ _ => ?_
    rw [φ.text]
    exact .pure id _

/-- The parameters behind `params` are read alike. -/
theorem relabels_collectingParameter {closing : Token} (hclosing : (φ closing).gap = closing.gap)
    (hts : Tree.Fixed φ ts) :
    Relabels φ id (collectingParameter closing) (collectingParameter (φ closing)) ts := by
  refine (Relabels.text (by decide) fun n _ => hts.verbatim n).next fun written ts₁ h₁ => ?_
  have hts₁ := hts.of_suffix (LeavesEnd.text _ _ _ _ h₁)
  refine (Relabels.nameBut [] ts₁).bind fun name ts₂ h₂ => ?_
  obtain ⟨rfl, -⟩ := mem_nameBut.mp h₂
  have hname := afterTrivia_eq (hts₁ name (by simp [Tree.tokens]))
  refine (Relabels.peek ts₂).bind fun t ts₃ h₃ => ?_
  obtain ⟨rfl, rfl⟩ := mem_peek.mp h₃
  have hfollowing : (((ts₃.head?.map (Tree.relabel φ)).map Tree.head).getD (φ closing)).afterTrivia =
      ((ts₃.head?.map Tree.head).getD closing).afterTrivia := by
    cases ts₃ with
    | nil => exact afterTrivia_eq hclosing
    | cons t ts₃ =>
        obtain ⟨rest, hrest⟩ := t.tokensAll_eq_head_cons ts₃
        have hhead : t.head ∈ Tree.tokensAll (.token name :: t :: ts₃) := by
          rw [Tree.tokensAll_cons (.token name), hrest]
          simp
        simpa using afterTrivia_eq (hts₁ t.head hhead)
  simp only [hfollowing, hname, φ.text]
  split <;> exact .pure id _

/-- A parameter is read alike. -/
theorem relabels_parameter {closing : Token} (hclosing : (φ closing).gap = closing.gap)
    (hts : Tree.Fixed φ ts) : Relabels φ id (parameter closing) (parameter (φ closing)) ts := by
  refine (Relabels.skip (by decide) ts).next fun _ ts₁ h₁ => ?_
  refine (Relabels.isNext "params" ts₁).next fun collects ts₂ h₂ => ?_
  have hts₂ := hts.of_suffix ((LeavesEnd.next _ _ _ _ h₂).trans (LeavesEnd.skip _ _ _ _ h₁))
  cases collects with
  | true =>
      refine (Relabels.skip (by decide) ts₂).next fun _ ts₃ h₃ => ?_
      exact relabels_collectingParameter hclosing (hts₂.of_suffix (LeavesEnd.skip _ _ _ _ h₃))
  | false =>
      refine (relabels_typedParameter hts₂).next fun p ts₃ _ => ?_
      exact (Relabels.skip (by decide) ts₃).next fun _ _ _ => .pure id _

/-- The parameters between two parentheses are the same. -/
theorem parameters?_relabel {inner : List Tree} {closing : Token}
    (h : φ.Fixes (Tree.tokensAll inner ++ [closing])) :
    parameters? (inner.map (Tree.relabel φ)) (φ closing) = parameters? inner closing := by
  have hinner : Tree.Fixed φ inner := fun u hu => h u (List.mem_append_left _ hu)
  have hclosing := h closing (List.mem_append_right _ (List.mem_singleton_self _))
  have hparameters := (Relabels.separated (LeavesEnd.parameter closing)
    (fun us hus => relabels_parameter hclosing (hinner.of_suffix hus)) inner.length inner
    List.suffix_rfl).whole?
  cases inner with
  | nil => rfl
  | cons t inner =>
      simp only [parameters?, List.map_cons, List.length_cons, List.length_map] at hparameters ⊢
      rw [hparameters]
      simp

/-! ### Members -/

/-- The text of a phrase that takes no braces. -/
theorem relabels_text_of_avoids {p : Phrase} (hp : p.isDiscreet = true)
    (havoids : p.avoids typeRules (.group .curly) = true) (hts : Tree.Steady φ ts) :
    Relabels φ id (text p) (text p) ts :=
  .text hp fun _ hn => hts.verbatim (not_of_mem_take hn (typeRules_avoidedBy (by decide)) havoids)

/-- The head of a member is read alike. -/
theorem relabels_memberHead (hts : Tree.Steady φ ts) : Relabels φ id memberHead memberHead ts := by
  refine (Relabels.skip (by decide) ts).next fun _ ts₁ h₁ => ?_
  have hts₁ := hts.of_suffix (LeavesEnd.skip _ _ _ _ h₁)
  refine (relabels_text_of_avoids (by decide) (by decide) hts₁).next fun written ts₂ _ => ?_
  refine (Relabels.skip (by decide) ts₂).next fun _ ts₃ _ => ?_
  refine (Relabels.nameBut _ ts₃).bind fun name _ _ => ?_
  rw [φ.text]
  exact .pure id _

/-- **A method** is read as before. -/
theorem relabels_method (hts : Tree.Steady φ ts) : Relabels φ id method method ts := by
  refine (relabels_memberHead hts).next fun head ts₁ h₁ => ?_
  have hts₁ := hts.of_suffix (LeavesEnd.memberHead _ _ _ h₁)
  refine (Relabels.skip (by decide) ts₁).next fun _ ts₂ h₂ => ?_
  have hts₂ := hts₁.of_suffix (LeavesEnd.skip _ _ _ _ h₂)
  refine (Relabels.group .round ts₂).bind fun ⟨list, inner, closing⟩ ts₃ h₃ => ?_
  obtain ⟨opening, rfl, rfl⟩ := mem_group.mp h₃
  have hlist : Tree.verbatim [(Tree.group .round opening inner (.present closing)).relabel φ] =
      Tree.verbatim [.group .round opening inner (.present closing)] :=
    hts₂.verbatim (n := 1) (by simp [Head.of])
  refine (Relabels.given (parameters?_relabel (hts₂.group (by decide))) ts₃).next fun ps ts₄ _ => ?_
  refine (Relabels.skip (by decide) ts₄).next fun _ ts₅ _ => ?_
  dsimp only
  rw [hlist]
  exact .pure id _

/-- An accessor is read alike. -/
theorem relabels_accessor (ts : List Tree) : Relabels φ id accessor accessor ts := by
  refine (Relabels.skip (by decide) ts).next fun _ ts₁ _ => ?_
  refine (Relabels.nameBut _ ts₁).bind fun word ts₂ _ => ?_
  rw [φ.text]
  exact (Relabels.skip (by decide) ts₂).next fun _ _ _ => .pure id _

/-- The words of the accessors are the same. -/
theorem accessors?_relabel (inner : List Tree) :
    accessors? (inner.map (Tree.relabel φ)) = accessors? inner := by
  have haccessors : Relabels φ (List.map id) (untilEnd accessor inner.length)
      (untilEnd accessor inner.length) inner := .untilEnd relabels_accessor inner.length inner
  have haccessors := haccessors.whole?
  rw [accessors?, List.length_map, haccessors, accessors?]
  simp

/-- **A property** is read as before. -/
theorem relabels_propertyRest (head : String × String) (ts : List Tree) :
    Relabels φ id (propertyRest head) (propertyRest head) ts := by
  refine (Relabels.isNext "=>" ts).next fun isArrow ts₁ _ => ?_
  cases isArrow with
  | true => exact (Relabels.skip (by decide) ts₁).next fun _ _ _ => .pure id _
  | false =>
      refine (Relabels.group .curly ts₁).bind fun ⟨_, inner, _⟩ ts₂ _ => ?_
      refine (Relabels.given (accessors?_relabel inner) ts₂).next fun words ts₃ _ => ?_
      exact (Relabels.skip (by decide) ts₃).next fun _ _ _ => .pure id _

/-- A property is read alike. -/
theorem relabels_property (hts : Tree.Steady φ ts) : Relabels φ id property property ts :=
  (relabels_memberHead hts).next fun head ts₁ _ => relabels_propertyRest head ts₁

/-! ### Interfaces and namespaces -/

/-- The bases of an interface are read alike. -/
theorem relabels_bases (hts : Tree.Steady φ ts) : Relabels φ id bases bases ts := by
  refine (Relabels.isNext ":" ts).next fun hasBases ts₁ h₁ => ?_
  cases hasBases with
  | false => exact .pure id _
  | true =>
      rw [if_pos rfl]
      refine (Relabels.skip (by decide) ts₁).next fun _ ts₂ h₂ => ?_
      have hts₂ := hts.of_suffix ((LeavesEnd.skip _ _ _ _ h₂).trans (LeavesEnd.next _ _ _ _ h₁))
      have htrees : Relabels φ (List.map (Tree.relabel φ)) bases.trees bases.trees ts₂ := rfl
      refine htrees.bind fun trees ts₃ h₃ => ?_
      have hts₃ := hts₂.of_suffix (LeavesEnd.trees _ _ _ h₃)
      rw [List.length_map]
      have htypes : Relabels φ (List.map id) (separated (text (rule .type)) trees.length)
          (separated (text (rule .type)) trees.length) ts₃ :=
        .separated (LeavesEnd.text _)
          (fun us hus => relabels_text_of_avoids (by decide) (by decide) (hts₃.of_suffix hus))
          trees.length ts₃ List.suffix_rfl
      rw [List.map_id_fun] at htypes
      refine htypes.next fun types ts₄ h₄ => ?_
      have hts₄ := hts₃.of_suffix ((LeavesEnd.text _).separated _ _ _ _ h₄)
      refine (Relabels.peek ts₄).bind fun t ts₅ h₅ => ?_
      obtain ⟨rfl, rfl⟩ := mem_peek.mp h₅
      rcases ts₅ with _ | ⟨_ | ⟨b, _, _, _⟩, ts₅⟩
      · exact .pure id _
      · exact .pure id _
      · cases b with
        | round =>
            exact (relabels_text_of_avoids (by decide) (by decide) hts₄).next fun _ _ _ => .pure id _
        | _ => exact .pure id _

/-- The body at the end of a type is the relabelled one. -/
theorem relabels_typeEnd (ts : List Tree) :
    Relabels φ (List.map (Tree.relabel φ)) typeEnd typeEnd ts := by
  refine (Relabels.isNext ";" ts).next fun isEmpty ts₁ _ => ?_
  cases isEmpty with
  | true => exact (Relabels.skip (by decide) ts₁).next fun _ _ _ => .pure _ []
  | false =>
      refine (Relabels.group .curly ts₁).bind fun ⟨_, inner, _⟩ ts₂ _ => ?_
      exact (Relabels.skip (by decide) ts₂).next fun _ _ _ => .pure _ inner

/-- **An interface** is read as before, but for its body. -/
theorem relabels_interface (hts : Tree.Steady φ ts) :
    Relabels φ (Prod.map id (List.map (Tree.relabel φ))) interface interface ts := by
  refine (Relabels.skip (by decide) ts).next fun _ ts₁ h₁ => ?_
  refine (Relabels.nameBut [] ts₁).bind fun name ts₂ h₂ => ?_
  refine (Relabels.skip (by decide) ts₂).next fun _ ts₃ h₃ => ?_
  have hts₃ := hts.of_suffix <| (LeavesEnd.skip _ _ _ _ h₃).trans <|
    (LeavesEnd.nameBut _ _ _ _ h₂).trans (LeavesEnd.skip _ _ _ _ h₁)
  refine (relabels_bases hts₃).next fun bases ts₄ _ => ?_
  refine (Relabels.skip (by decide) ts₄).next fun _ ts₅ _ => ?_
  refine (relabels_typeEnd ts₅).bind fun inner ts₆ _ => ?_
  rw [φ.text]
  exact .pure _ ((⟨name.text, bases⟩ : Interface), inner)

/-- **A namespace** is read as before, but for its body. -/
theorem relabels_namespaceBlock (hts : Tree.Steady φ ts) :
    Relabels φ (Prod.map id (List.map (Tree.relabel φ))) namespaceBlock namespaceBlock ts := by
  refine (Relabels.skip (by decide) ts).next fun _ ts₁ h₁ => ?_
  have hts₁ := hts.of_suffix (LeavesEnd.skip _ _ _ _ h₁)
  refine (relabels_text_of_avoids (by decide) (by decide) hts₁).next fun name ts₂ _ => ?_
  refine (Relabels.group .curly ts₂).bind fun ⟨_, inner, _⟩ ts₃ _ => ?_
  exact (Relabels.skip (by decide) ts₃).next fun _ _ _ => .pure _ (name, inner)

end Reader

end InteropStubs
