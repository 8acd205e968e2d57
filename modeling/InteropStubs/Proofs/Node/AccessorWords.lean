import InteropStubs.Proofs.Node.Header
import InteropStubs.Proofs.Node.Size

/-!
# The words of accessors

`AccessorList` says what the accessors of a property are made of, and `PropertyForm` what a property is made of.
There is one word for each accessor, and it can be found without a grammar: it is what stands directly in front of
a body, where bodies are semicolons, braces and what is between an arrow and the next semicolon
(`Tree.beforeBodies`). Whatever else is in an accessor is in brackets or in braces, or behind an arrow, or in front
of the word.

* `AccessorList.beforeBodies_eq`: so the accessors of a list have the words that are found in this way, and a list
  is made of accessors in one way as far as their words are concerned.
* `exists_propertyForm`: what is read as a property has one of two forms, and keeps those words of its accessors
  that are in `accessorWords`.
* `PropertyForm.unique`: a property has its name and its accessors' words in one way.
-/

namespace InteropStubs

open Phrase Rule Reader

/-- A list of trees is made of accessors with some words: each has attributes and modifiers in front of its word,
and a body behind it. -/
inductive AccessorList : List Tree → List Token → Prop where
  | nil : AccessorList [] []
  | cons {ts us rest : List Tree} {word : Token} {words : List Token}
      (decorated : ((), .token word :: us) ∈ skip decorations ts)
      (named : (TokenClass.nameBut Words.modifiers).holds word = true)
      (body : ((), rest) ∈ skip (rule .body) us) (more : AccessorList rest words) :
      AccessorList ts (word :: words)

/-- A property of a name, which has some trees for its accessors, and these have some words. -/
inductive PropertyForm (run : List Tree) : Token → List Tree → List Token → Prop where
  /-- A value behind an arrow, and no accessors. -/
  | arrow {type owned rest : List Tree} {name : Token}
      (head : MemberHead (Tree.ruleDepth run) run type owned name rest)
      (value : Leaves (Tree.ruleDepth run) arrowBody rest []) : PropertyForm run name [] []
  /-- Accessors in braces, and possibly a value behind them. -/
  | listed {type owned inner rest : List Tree} {name opening closing : Token} {words : List Token}
      (head : MemberHead (Tree.ruleDepth run) run type owned name
        (.group .curly opening inner (.present closing) :: rest))
      (accessors : AccessorList inner words)
      (value : Leaves (Tree.ruleDepth run) (Phrase.optional initialValue) rest []) : PropertyForm run name inner words

/-! ### The words in front of bodies -/

namespace Tree

mutual

/-- The trees directly in front of bodies, where `last` is what stands in front of the list. A body is a
semicolon, braces, or what is between an arrow and a semicolon. -/
def beforeBodies (last : Option Tree) : List Tree → List Tree
  | [] => []
  | t :: ts =>
      if t.isText ";" || t.isBraces then last.toList ++ beforeBodies none ts
      else if t.isText "=>" then last.toList ++ beforeBodiesBehindValue ts
      else beforeBodies (some t) ts

/-- The same behind an arrow, with all that is in front of the next semicolon left out. -/
def beforeBodiesBehindValue : List Tree → List Tree
  | [] => []
  | t :: ts => if t.isText ";" then beforeBodies none ts else beforeBodiesBehindValue ts

end

variable {last : Option Tree} {front rest ts us : List Tree} {e : Tree} {word : Token} {fuel : Nat}

/-- The heads that bodies begin with. -/
def bodyHeads : List Head := [.mark ";", .mark "=>", .group .curly]

theorem not_isBody {t : Tree} (hts : Spelled us) (ht : t ∈ us) (h : ∀ head ∈ bodyHeads, ¬ head.of t) :
    (t.isText ";" || t.isBraces) = false ∧ t.isText "=>" = false := by
  have hbraces : t.isBraces = false := Bool.eq_false_iff.mpr fun hb =>
    h (.group .curly) (by decide) (isBraces_iff.mp hb)
  rw [hts.isText_eq_false ht (by decide) (h (.mark ";") (by decide)), hbraces]
  exact ⟨rfl, hts.isText_eq_false ht (by decide) (h (.mark "=>") (by decide))⟩

/-- Only what is directly in front of a body counts. -/
theorem beforeBodies_append
    (hfront : ∀ t ∈ front, (t.isText ";" || t.isBraces) = false ∧ t.isText "=>" = false) :
    beforeBodies last (front ++ us) = beforeBodies (front.getLast?.or last) us := by
  induction front generalizing last with
  | nil => rfl
  | cons t front ih =>
      obtain ⟨⟨hend, harrow⟩, hfront⟩ := List.forall_mem_cons.mp hfront
      have hlast : (t :: front).getLast?.or last = front.getLast?.or (some t) := by
        rw [List.getLast?_cons, Option.or_some]
        rfl
      rw [List.cons_append, beforeBodies, hend, harrow, if_neg Bool.false_ne_true, if_neg Bool.false_ne_true,
        ih hfront, hlast]

/-- A value counts for nothing, whatever is in it. -/
theorem beforeBodiesBehindValue_append (hfront : ∀ t ∈ front, t.isText ";" = false) (he : e.isText ";" = true) :
    beforeBodiesBehindValue (front ++ e :: rest) = beforeBodies none rest := by
  induction front with
  | nil => rw [List.nil_append, beforeBodiesBehindValue, if_pos he]
  | cons t front ih =>
      obtain ⟨ht, hfront⟩ := List.forall_mem_cons.mp hfront
      rw [List.cons_append, beforeBodiesBehindValue, ht, if_neg Bool.false_ne_true, ih hfront]

/-- A rule is left where its phrase is. -/
theorem exists_leaves_phrase {r : Rule} (hl : Leaves fuel (rule r) ts rest) :
    ∃ fuel, Leaves fuel r.phrase ts rest := by
  cases fuel with
  | zero =>
      obtain ⟨n, hn, -⟩ := hl
      exact absurd hn List.not_mem_nil
  | succ fuel => exact ⟨fuel, leaves_rule.mp hl⟩

/-- A body has one tree in front of it. -/
theorem beforeBodies_body (hts : Spelled ts) (hl : Leaves fuel (rule .body) ts rest) :
    beforeBodies last ts = last.toList ++ beforeBodies none rest := by
  obtain ⟨fuel, hl⟩ := exists_leaves_phrase hl
  rcases leaves_orElse.mp hl with hsemicolon | hl
  · obtain ⟨t, rfl, ht⟩ := leaves_one.mp hsemicolon
    have ht : (Tree.token t).isText ";" = true := ht
    rw [beforeBodies, ht, Bool.true_or, if_pos rfl]
  · rcases leaves_orElse.mp hl with hblock | hvalue
    · obtain ⟨fuel, hblock⟩ := exists_leaves_phrase hblock
      obtain ⟨opening, inner, closing, rfl, -⟩ := leaves_within.mp hblock
      rfl
    · obtain ⟨us, harrow, hend⟩ := leaves_andThen.mp (leaves_assoc.mp hvalue)
      obtain ⟨t, rfl, ht⟩ := leaves_one.mp harrow
      have ht : (Tree.token t).isText "=>" = true := ht
      have hsemicolon : (Tree.token t).isText ";" = false := Run.isText_eq_false_of_ne ht (by decide)
      have hus : Spelled us := hts.of_subset (List.subset_cons_self _ _)
      obtain ⟨front, e, rfl, hfront, he⟩ := exists_semicolon hus expressionRules_avoidedBy (by decide) hend
      have hplain : ∀ t ∈ front, t.isText ";" = false := fun t ht =>
        hus.isText_eq_false (List.mem_append_left _ ht) (by decide) (hfront t ht)
      have hbraces : (Tree.token t).isBraces = false := rfl
      rw [beforeBodies, hsemicolon, hbraces, ht, Bool.or_false, if_neg Bool.false_ne_true, if_pos rfl,
        beforeBodiesBehindValue_append hplain (isText_of_mark he)]

end Tree

namespace AccessorList

variable {ts : List Tree} {words : List Token}

/-- Attributes and modifiers are no bodies. -/
theorem exists_front_of_decorations {ts rest : List Tree} (h : ((), rest) ∈ skip decorations ts) :
    ∃ front, ts = front ++ rest ∧ ∀ t ∈ front, ∀ head ∈ Tree.bodyHeads, ¬ head.of t := by
  have hall : ∀ head ∈ Tree.bodyHeads, Rule.attributes.phrase.avoids [.attributes] head = true ∧
      decorations.avoids [.attributes] head = true := by
    decide
  have hl := mem_skip_iff.mp h
  obtain ⟨front, rfl⟩ := hl.suffix
  refine ⟨front, rfl, fun t ht head hhead => ?_⟩
  obtain ⟨hrule, hdecorations⟩ := hall head hhead
  obtain ⟨front', heq, hfront⟩ := hl.without (fun r hr => List.mem_singleton.mp hr ▸ hrule) hdecorations
  obtain rfl := List.append_cancel_right heq
  exact hfront t ht

/-- **The words of accessors** are what is in front of their bodies. -/
theorem beforeBodies_eq (h : AccessorList ts words) (hts : Tree.Spelled ts) :
    Tree.beforeBodies none ts = words.map .token := by
  induction h with
  | nil => rfl
  | @cons ts us rest word words decorated named body more ih =>
      obtain ⟨front, rfl, hfront⟩ := exists_front_of_decorations decorated
      have hus : Tree.Spelled us := hts.of_subset fun t ht => by simp [ht]
      have hrest : Tree.Spelled rest := hus.of_subset (mem_skip_iff.mp body).suffix.subset
      -- the word is no body either: it would be a mark, or braces
      have hword : ∀ head ∈ Tree.bodyHeads, ¬ head.of (.token word) := by
        obtain ⟨hkind, -⟩ : word.kind = .word ∧ _ := by
          simpa [TokenClass.holds] using named
        simp [Tree.bodyHeads, Head.of, hkind]
      have hplain : ∀ t ∈ front ++ [.token word], (t.isText ";" || t.isBraces) = false ∧ t.isText "=>" = false := by
        intro t ht
        have hmem : t ∈ front ++ .token word :: us := by
          rw [List.append_cons]
          exact List.mem_append_left _ ht
        refine Tree.not_isBody hts hmem ?_
        rcases List.mem_append.mp ht with ht | ht
        · exact hfront t ht
        · exact List.mem_singleton.mp ht ▸ hword
      rw [List.append_cons, Tree.beforeBodies_append hplain, List.getLast?_concat, Option.some_or,
        Tree.beforeBodies_body hus (mem_skip_iff.mp body), ih hrest]
      rfl

/-- A list is made of accessors in one way, as far as their words are concerned. -/
theorem unique {words' : List Token} (h : AccessorList ts words) (h' : AccessorList ts words')
    (hts : Tree.Spelled ts) : words = words' := by
  -- Both are the tokens directly in front of bodies, and those depend on `ts` alone.
  have heq := (h.beforeBodies_eq hts).symm.trans (h'.beforeBodies_eq hts)
  exact List.map_injective_iff.mpr (fun _ _ => Tree.token.inj) heq

end AccessorList

/-! ### What is read -/

theorem exists_of_mem_untilEnd {bound : Nat} {texts : List String} {ts : List Tree}
    (h : (texts, []) ∈ untilEnd accessor bound ts) :
    ∃ words, AccessorList ts words ∧ texts = words.map Token.text := by
  induction bound generalizing ts texts with
  | zero =>
      obtain ⟨rfl, rfl⟩ := mem_pure.mp h
      exact ⟨[], .nil, rfl⟩
  | succ bound ih =>
      obtain ⟨next, us, hpeek, h⟩ := mem_bind.mp h
      obtain ⟨rfl, rfl⟩ := mem_peek.mp hpeek
      cases us with
      | nil =>
          obtain ⟨rfl, -⟩ := mem_pure.mp h
          exact ⟨[], .nil, rfl⟩
      | cons t us =>
          obtain ⟨text, left, haccessor, h⟩ := mem_bind.mp h
          obtain ⟨texts, last, hmore, h⟩ := mem_bind.mp h
          obtain ⟨rfl, rfl⟩ := mem_pure.mp h
          obtain ⟨_, vs, hdecorated, h⟩ := mem_bind.mp haccessor
          obtain ⟨word, ws, hword, h⟩ := mem_bind.mp h
          obtain ⟨_, xs, hbody, h⟩ := mem_bind.mp h
          obtain ⟨rfl, rfl⟩ := mem_pure.mp h
          obtain ⟨rfl, hnamed⟩ := mem_nameBut.mp hword
          obtain ⟨words, hwords, rfl⟩ := ih hmore
          exact ⟨word :: words, .cons hdecorated hnamed hbody hwords, rfl⟩

theorem exists_of_accessors? {inner : List Tree} {as : List String} (h : accessors? inner = some as) :
    ∃ words, AccessorList inner words ∧ as = (words.map Token.text).filter accessorWords.contains := by
  obtain ⟨texts, htexts, rfl⟩ := Option.map_eq_some_iff.mp h
  obtain ⟨words, hwords, rfl⟩ := exists_of_mem_untilEnd (mem_of_whole? htexts)
  exact ⟨words, hwords, rfl⟩

/-- **What is read as a property** has a form, and keeps its name and those words of its accessors that are in
`accessorWords`. -/
theorem exists_propertyForm {run : List Tree} {p : Property} (h : whole? property run = some p) :
    ∃ name inner words, PropertyForm run name inner words ∧ p.name = name.text ∧
      p.accessors = (words.map Token.text).filter accessorWords.contains := by
  have hmem := mem_of_whole? h
  rw [property_eq] at hmem
  obtain ⟨⟨written, text⟩, rest, hread, hrest⟩ := mem_bind.mp hmem
  obtain ⟨front, owned, name, hhead, rfl, rfl⟩ := (mem_memberHead (Nat.le_refl _)).mp hread
  have hfuel : Tree.ruleDepth rest ≤ Tree.ruleDepth run :=
    ruleDepth_le_of_suffix (LeavesEnd.memberHead _ _ _ hread)
  obtain ⟨isArrow, us, hnext, hmore⟩ := mem_bind.mp hrest
  obtain ⟨-, rfl⟩ := mem_next.mp hnext
  split at hmore
  · obtain ⟨_, vs, hvalue, hpure⟩ := mem_bind.mp hmore
    obtain ⟨rfl, rfl⟩ := mem_pure.mp hpure
    exact ⟨name, [], [], .arrow hhead ((mem_skip_of_le hfuel).mp hvalue), rfl, rfl⟩
  · obtain ⟨⟨g, inner, closing⟩, vs, hgroup, hmore⟩ := mem_bind.mp hmore
    obtain ⟨as, ws, hgiven, hmore⟩ := mem_bind.mp hmore
    obtain ⟨_, xs, hvalue, hpure⟩ := mem_bind.mp hmore
    obtain ⟨rfl, rfl⟩ := mem_pure.mp hpure
    obtain ⟨haccessors, rfl⟩ := mem_given.mp hgiven
    obtain ⟨opening, rfl, rfl⟩ := mem_group.mp hgroup
    obtain ⟨words, hwords, rfl⟩ := exists_of_accessors? haccessors
    have hws := Nat.le_trans (ruleDepth_le_of_suffix (List.suffix_cons _ _)) hfuel
    exact ⟨name, inner, words, .listed hhead hwords ((mem_skip_of_le hws).mp hvalue), rfl, rfl⟩

namespace PropertyForm

variable {run rest inner inner' : List Tree} {name name' : Token} {words words' : List Token}

theorem accessors (h : PropertyForm run name inner words) : AccessorList inner words := by
  cases h with
  | arrow => exact .nil
  | listed _ accessors => exact accessors

/-- What is behind the name of a property is an end of the run. -/
theorem spelled {type owned left : List Tree} {n : Token} (hts : Tree.Spelled run)
    (hhead : MemberHead (Tree.ruleDepth run) run type owned n left) : Tree.Spelled left :=
  hts.of_subset ((List.suffix_cons _ _).trans <| hhead.owner.suffix.trans <|
    hhead.type.suffix.trans hhead.decorations.suffix).subset

theorem spelled_accessors (h : PropertyForm run name inner words) (hts : Tree.Spelled run) : Tree.Spelled inner := by
  cases h with
  | arrow => exact nofun
  | listed head => exact ((spelled hts head).of_mem List.mem_cons_self).inner

theorem behindName_braces (opening : Token) (inner : List Tree) (closing : Token) (rest : List Tree) :
    BehindName (.group .curly opening inner (.present closing) :: rest) :=
  .plain (.property ⟨.group .curly, by decide, rfl⟩)

theorem behindName_arrowBody {fuel : Nat} (hts : Tree.Spelled rest) (hl : Leaves fuel arrowBody rest []) :
    BehindName rest :=
  .plain (.property ((startsIn_arrowBody _ _ hts hl).mono (by decide)))

theorem not_arrowBody_braces {fuel : Nat} {opening closing : Token} {inner left : List Tree} :
    ¬ Leaves fuel arrowBody (.group .curly opening inner (.present closing) :: rest) left :=
  not_leaves (h := .group .curly) rfl (by decide)

/-- **A property has one name and one list of accessors.** -/
theorem unique (h : PropertyForm run name inner words) (h' : PropertyForm run name' inner' words')
    (hts : Tree.Spelled run) : name = name' ∧ inner = inner' ∧ words = words' := by
  have heq : name = name' ∧ inner = inner' := by
    cases h with
    | arrow head value =>
        have hname := behindName_arrowBody (spelled hts head) value
        cases h' with
        | arrow head' value' =>
            obtain ⟨-, -, rfl, -⟩ := head.unique head' hts hname (behindName_arrowBody (spelled hts head') value')
            exact ⟨rfl, rfl⟩
        | listed head' =>
            obtain ⟨-, -, -, rfl⟩ := head.unique head' hts hname (behindName_braces ..)
            exact absurd value not_arrowBody_braces
    | listed head =>
        cases h' with
        | arrow head' value' =>
            obtain ⟨-, -, -, rfl⟩ :=
              head.unique head' hts (behindName_braces ..) (behindName_arrowBody (spelled hts head') value')
            exact absurd value' not_arrowBody_braces
        | listed head' =>
            obtain ⟨-, -, rfl, heq⟩ := head.unique head' hts (behindName_braces ..) (behindName_braces ..)
            injection heq with hgroup
            injection hgroup with _ _ hinner
            exact ⟨rfl, hinner⟩
  obtain ⟨rfl, rfl⟩ := heq
  exact ⟨rfl, rfl, h.accessors.unique h'.accessors (h.spelled_accessors hts)⟩

end PropertyForm

end InteropStubs
