import InteropStubs.Proofs.Phrase.Members

/-!
# How the headers of interfaces are divided

In front of its body an interface has its name, its base and what is demanded of its type parameters, and each part
ends where the next one begins. Only a base could end in two places (`eq_or_goesOn_of_base`): where it ends with the
word `scoped` and parentheses, these could be arguments.
-/

namespace InteropStubs.Phrase

open Rule
open InteropStubs.Tree (Spelled)

variable {fuel : Nat} {ts us mid mid' : List Tree}

/-- What is behind the bases of an interface: what is demanded of a type parameter, or the end of the interface. -/
inductive HeaderEnd : List Tree → Prop
  | body {ts : List Tree} (h : BeginsIn [.mark ";", .group .curly] ts) : HeaderEnd ts
  | demand {t : Tree} {name colon : Token} {rest : List Tree}
      (h : BeginsIn [.word "where", .mark "where"] (t :: .token name :: .token colon :: rest)) (hname : name.kind = .word)
      (hcolon : (Head.mark ":").of (.token colon)) : HeaderEnd (t :: .token name :: .token colon :: rest)

/-- The heads of what is behind the bases of an interface. -/
def headerEnds : List Head :=
  [.mark ";", .group .curly, .word "where", .mark "where"]

/-- What is behind the bases of an interface begins with one of a few heads. -/
theorem HeaderEnd.begins (h : HeaderEnd ts) : BeginsIn headerEnds ts := by
  cases h with
  | body h => exact h.mono (by decide)
  | demand h => exact h.mono (by decide)

theorem HeaderEnd.ne_nil (h : HeaderEnd ts) : ts ≠ [] := by
  rintro rfl
  obtain ⟨head, hhead, hb⟩ := h.begins
  have hnothing : head ≠ .nothing := ne_of_mem_of_not_mem hhead (by decide)
  cases head with
  | nothing => exact hnothing rfl
  | _ => exact hb

/-- What is demanded of type parameters is behind the bases, and so is the body. -/
theorem headerEnd_of_constraints (hts : Spelled ts) (hl : Leaves fuel constraints ts us)
    (hus : BeginsIn [.mark ";", .group .curly] us) : HeaderEnd ts := by
  rcases leaves_many.mp hl with rfl | ⟨vs, hfirst, -⟩
  · exact .body hus
  · obtain ⟨ws, hfront, -⟩ := leaves_andThen.mp hfirst
    obtain ⟨xs, hstart, hcolon⟩ := leaves_andThen.mp hfront
    obtain ⟨ys, hword, hname⟩ := leaves_andThen.mp hstart
    have hwhere := startsIn_word "where" ts ys hts hword
    obtain ⟨t, rfl, -⟩ := leaves_one.mp hword
    obtain ⟨n, rfl, hn⟩ := leaves_one.mp hname
    obtain ⟨c, rfl, hc⟩ := leaves_one.mp hcolon
    simp only [TokenClass.holds, Bool.and_eq_true, beq_iff_eq] at hn
    exact .demand hwhere hn.1 (hts.of_isText (by simp) (by decide) hc)

/-- What may stand where a base of an interface ends: more bases, arguments, or what is behind the bases. -/
inductive BehindBase : List Tree → Prop
  | headerEnd {ts : List Tree} (h : HeaderEnd ts) : BehindBase ts
  | more {ts : List Tree} (h : BeginsIn [.mark ","] ts) : BehindBase ts
  | arguments {opening closing : Token} {inner rest : List Tree} (h : HeaderEnd rest) :
      BehindBase (.group .round opening inner (.present closing) :: rest)

/-- What may stand where a base ends begins with a comma, parentheses or what is behind the bases. -/
theorem BehindBase.begins (h : BehindBase ts) : BeginsIn (.mark "," :: .group .round :: headerEnds) ts := by
  cases h with
  | headerEnd h => exact h.begins.mono (by decide)
  | more h => exact h.mono (by decide)
  | arguments h => exact ⟨.group .round, by decide, rfl⟩

/-- Nothing of it goes on with a type. -/
theorem BehindBase.not_beginsIn (h : BehindBase ts) : ¬ BeginsIn typeBreaks ts := fun hbreaks =>
  hbreaks.disjoint h.begins (by decide)

/-- A name with a colon behind it stands in front of all bases. -/
theorem not_behindBase_of_word {name colon : Token} (hname : name.kind = .word)
    (hcolon : (Head.mark ":").of (.token colon)) : ¬ BehindBase (.token name :: .token colon :: us) := by
  intro h
  cases h with
  | more h => exact not_beginsIn_of_word hname (by simp) h
  | headerEnd h =>
      cases h with
      | body h => exact not_beginsIn_of_word hname (by simp) h
      | demand _ hword => exact absurd (hword.symm.trans hcolon.1) (by decide)

/-- A type leads from behind a base to behind a base only over parentheses. -/
theorem BehindBase.exists_group_of_type (h : BehindBase ts) (hmid : BehindBase mid) (hts : Spelled ts)
    (hl : Leaves fuel (rule .type) ts mid) :
    ∃ opening inner closing, ts = .group .round opening inner (.present closing) :: mid := by
  have hrefuses {stops : List Head} (hb : BeginsIn stops ts)
      (hstops : ∀ head ∈ stops, (rule .type).refuses head = true) : False := by
    obtain ⟨head, hhead, hb⟩ := hb
    exact not_leaves hb (hstops head hhead) hl
  cases h with
  | more h => exact (hrefuses h (by decide)).elim
  | @arguments opening closing inner rest h =>
      have hround : BeginsIn [.group .round] (.group .round opening inner (.present closing) :: rest) :=
        ⟨.group .round, List.mem_singleton_self _, rfl⟩
      obtain rfl := eq_of_type_cons hts (BehindBase.headerEnd h).not_beginsIn
        (fun hb => hb.disjoint hround (by decide)) hl
      exact ⟨opening, inner, closing, rfl⟩
  | headerEnd h =>
      cases h with
      | body h => exact (hrefuses h (by decide)).elim
      | @demand t name colon rest h hname hcolon =>
          have hbreaks : ¬ BeginsIn typeBreaks (.token name :: .token colon :: rest) :=
            not_beginsIn_of_word hname (by simp [typeBreaks, nameBreaks])
          obtain rfl := eq_of_type_cons hts hbreaks (fun hb => hb.disjoint h (by decide)) hl
          exact absurd hmid (not_behindBase_of_word hname hcolon)

/-- **A base has one end**, or it ends with the word `scoped` and parentheses. -/
theorem eq_or_goesOn_of_base (hts : Spelled ts) (hl : Leaves fuel (rule .type) ts mid)
    (hl' : Leaves fuel (rule .type) ts mid') (hmid : HeaderEnd mid) (hmid' : BehindBase mid') :
    mid' = mid ∨ (∃ opening inner closing, mid' = .group .round opening inner (.present closing) :: mid) ∧
      GoesOn fuel ts mid' mid := by
  have hbase : BehindBase mid := .headerEnd hmid
  rcases eq_or_goesOn hts hl hl' hbase.not_beginsIn hmid'.not_beginsIn with heq | hgoes | hgoes
  · exact .inl heq.symm
  · obtain ⟨⟨less, hmore⟩, -⟩ := hgoes
    obtain ⟨opening, inner, closing, rfl⟩ := hbase.exists_group_of_type hmid' (spelled_of_leaves hts hl) hmore
    exact (hmid.begins.disjoint ⟨.group .round, List.mem_singleton_self _, rfl⟩ (by decide)).elim
  · obtain ⟨⟨less, hmore⟩, -⟩ := id hgoes
    exact .inr ⟨hmid'.exists_group_of_type hbase (spelled_of_leaves hts hl') hmore, hgoes⟩

/-! ### In front of the base -/

/-- What stands in front of the name of an interface can be left in one place only. -/
theorem forks_interfaceStart : Forks [] fuel (decorations ++ the "interface") := by
  intro ts mid mid' hts hl hl'
  obtain ⟨us, hdecorations, hword⟩ := leaves_andThen.mp hl
  obtain ⟨us', hdecorations', hword'⟩ := leaves_andThen.mp hl'
  obtain ⟨vs, hattributes, hmodifiers⟩ := leaves_andThen.mp hdecorations
  obtain ⟨vs', hattributes', hmodifiers'⟩ := leaves_andThen.mp hdecorations'
  obtain rfl : vs = vs' := eq_of_attributes (p := Phrase.many modifier ++ the "interface") (by decide) hts hattributes
    hattributes' ⟨mid, leaves_andThen.mpr ⟨us, hmodifiers, hword⟩⟩ ⟨mid', leaves_andThen.mpr ⟨us', hmodifiers', hword'⟩⟩
  obtain rfl : us = us' := forks_modifier.eq_of_many (fun ts => ∃ rest, Leaves fuel (the "interface") ts rest)
    (spelled_of_leaves hts hattributes) hmodifiers hmodifiers' ⟨mid, hword⟩ ⟨mid', hword'⟩
    fun ws xs left _ ⟨rest, hgood⟩ hstep _ _ => by
      have hword : Leaves fuel (oneOf ["interface"]) ws rest := leaves_oneOf_of_the (by decide) hgood
      exact not_leaves_oneOf (by decide) hword hstep
  exact Forks.one us mid mid' (spelled_of_leaves hts hdecorations) hword hword'

/-- In front of the base list, or where there is none in front of what is behind it, type parameters have one end. -/
theorem eq_of_typeParameters (hts : Spelled ts) (hl : Leaves fuel (Phrase.optional (typeParametersBut [])) ts mid)
    (hl' : Leaves fuel (Phrase.optional (typeParametersBut [])) ts mid')
    (hmid : BeginsIn (.mark ":" :: headerEnds) mid) (hmid' : BeginsIn (.mark ":" :: headerEnds) mid') : mid = mid' := by
  have hnone {us : List Tree} (hus : BeginsIn (.mark ":" :: headerEnds) us) : ¬ BeginsIn [.mark "<"] us := fun hb =>
    hb.disjoint hus (by decide)
  have hforks := (isAngled_typeParameters (by decide)).optional ts mid mid' hts hl hl'
  exact hforks.resolve_right (not_or.mpr ⟨hnone hmid, hnone hmid'⟩)

/-! ### Interfaces -/

/-- How an interface is divided by its name, the colon behind its type parameters, and the end of its base. -/
structure InterfaceHead (fuel : Nat) (ts us : List Tree) (name colon : Token) (base rest : List Tree) : Prop where
  start : Leaves fuel (decorations ++ the "interface") ts (.token name :: us)
  name : (TokenClass.nameBut []).holds name = true
  types : Leaves fuel (Phrase.optional (typeParametersBut [])) us (.token colon :: (base ++ rest))
  colon : colon.isText ":" = true
  base : Leaves fuel (rule .type) (base ++ rest) rest
  ending : Leaves fuel (constraints ++ typeEnd (anyGroup .curly)) rest []

/-- Parentheses at the end of a base could be arguments behind it. -/
def Arguable (fuel : Nat) (ts rest : List Tree) : Prop :=
  ∃ opening inner closing, Leaves fuel (rule .type) ts (.group .round opening inner (.present closing) :: rest) ∧
    Leaves fuel (parens (rule .arguments)) (.group .round opening inner (.present closing) :: rest) rest

/-- The base of an interface and what is behind it are an end of the interface. -/
theorem InterfaceHead.suffix {name colon : Token} {base : List Tree} (h : InterfaceHead fuel ts us name colon base mid) :
    base ++ mid <:+ ts :=
  (List.suffix_cons _ _).trans <| h.types.suffix.trans <| (List.suffix_cons _ _).trans h.start.suffix

/-- A divided interface is one. -/
theorem InterfaceHead.leaves {name colon : Token} {base : List Tree} (h : InterfaceHead fuel ts us name colon base mid) :
    Leaves fuel ((decorations ++ the "interface" ++ Phrase.name ++ Phrase.optional (typeParametersBut []) ++ the ":" ++
      rule .type) ++ (constraints ++ typeEnd (anyGroup .curly))) ts [] :=
  leaves_andThen.mpr ⟨_, leaves_andThen.mpr ⟨_, leaves_andThen.mpr ⟨_, leaves_andThen.mpr ⟨_, leaves_andThen.mpr
    ⟨_, h.start, leaves_one.mpr ⟨name, rfl, h.name⟩⟩, h.types⟩, leaves_one.mpr ⟨colon, rfl, h.colon⟩⟩, h.base⟩, h.ending⟩

/-- What is left behind the base is behind all bases. -/
theorem InterfaceHead.headerEnd {name colon : Token} {base : List Tree} (hts : Spelled ts)
    (h : InterfaceHead fuel ts us name colon base mid) : HeaderEnd mid := by
  obtain ⟨vs, hconstraints, hend⟩ := leaves_andThen.mp h.ending
  have hmid : Spelled mid := hts.of_subset (h.base.suffix.trans h.suffix).subset
  have hvs : Spelled vs := spelled_of_leaves hmid hconstraints
  refine headerEnd_of_constraints hmid hconstraints ?_
  rcases leaves_orElse.mp hend with hbody | hsemicolon
  · obtain ⟨ws, hgroup, -⟩ := leaves_andThen.mp hbody
    obtain ⟨opening, inner, closing, left, rfl, -⟩ := leaves_opens.mp hgroup
    exact ⟨.group .curly, by decide, rfl⟩
  · exact (startsIn_the (by decide) _ _ hvs hsemicolon).mono (by decide)

end InteropStubs.Phrase
