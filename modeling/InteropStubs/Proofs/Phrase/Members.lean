import InteropStubs.Proofs.Phrase.Named

/-!
# How members are divided

A member has one division into its attributes and modifiers, its type, the interface that it belongs to, its name and
what is behind that (`MemberHead.unique`). What is optional in front of the name could be taken for something else in
several ways: a modifier that is no reserved word for a type, a type for a part of the name, and the name for a part of
the type. But each of these ends in front of something that is no name of a member.
-/

namespace InteropStubs.Phrase

open Rule
open InteropStubs.Tree (Spelled behindAngle)

variable {fuel : Nat} {keywords : List String} {t n : Token} {ts us vs mid mid' : List Tree}

/-- The heads of attributes. -/
def attributeHeads : List Head := [.group .square, .group .conditional]

/-- Attributes begin with square brackets or with a conditional. -/
theorem startsIn_attributes : StartsIn attributeHeads fuel (rule .attributes) :=
  .rule fun _ => (startsIn_within.mono (by decide)).orElse (startsIn_within.mono (by decide))

/-- Attributes can be left in one place only. -/
theorem forks_attributes : Forks [] fuel (rule .attributes) := by
  refine Forks.rule fun fuel => .of_tail fun ts mid hl => ?_
  rcases leaves_orElse.mp hl with hl | hl
  · obtain ⟨opening, inner, closing, rfl, -⟩ := leaves_within.mp hl
    rfl
  · obtain ⟨opening, inner, closing, rfl, -⟩ := leaves_within.mp hl
    rfl

/-- **Attributes end** in front of what begins with none. -/
theorem eq_of_attributes {p : Phrase} (hp : ∀ h ∈ attributeHeads, p.refuses h = true) (hts : Spelled ts)
    (hl : Leaves fuel (Phrase.many (rule .attributes)) ts mid)
    (hl' : Leaves fuel (Phrase.many (rule .attributes)) ts mid')
    (hmid : ∃ rest, Leaves fuel p mid rest) (hmid' : ∃ rest, Leaves fuel p mid' rest) : mid = mid' := by
  refine forks_attributes.eq_of_many (fun us => ∃ rest, Leaves fuel p us rest) hts hl hl' hmid hmid'
    fun us vs left hus ⟨rest, hgood⟩ hstep _ _ => ?_
  obtain ⟨h, hh, hb⟩ := startsIn_attributes us vs hus hstep
  exact not_leaves hb (hp h hh) hgood

/-! ### Names of members -/

/-- Behind the name of a member no dot follows, not even behind type parameters. -/
theorem BehindName.not_leaves_dot (h : BehindName ts) (hts : Spelled ts)
    (hl : Leaves fuel (Phrase.optional (rule .typeArguments)) ts mid) : ¬ Leaves fuel (the ".") mid us := by
  have hopens {ts : List Tree} (h : Opens ts) {p : Phrase}
      (hp : ∀ head ∈ [Head.group .curly, .mark "=>", .group .round], p.refuses head = true) {mid : List Tree} :
      ¬ Leaves fuel p ts mid := by
    obtain ⟨head, hhead, hb⟩ := h.begins
    exact not_leaves hb (hp head hhead)
  cases h with
  | plain h =>
      obtain rfl : mid = ts := (leaves_optional.mp hl).resolve_left (hopens h (by decide))
      exact hopens h (by decide)
  | generic ht h =>
      rcases leaves_optional.mp hl with hl | rfl
      · obtain ⟨t, us, heq, -, rfl⟩ := eq_behindAngle_of_typeArguments hts hl
        obtain ⟨-, rfl⟩ := List.cons.inj heq
        exact hopens h (by decide)
      · exact not_leaves (h := .mark "<") ht (by decide)

/-- Behind the name of a member no colons follow. -/
theorem BehindName.not_leaves_colons (h : BehindName ts) : ¬ Leaves fuel (the "::") ts us := by
  obtain ⟨head, hhead, hb⟩ : BeginsIn [.group .curly, .mark "=>", .group .round, .mark "<"] ts := by
    cases h with
    | plain h => exact h.begins.mono (by simp)
    | generic ht h => exact ⟨.mark "<", by simp, ht⟩
  have hrefuses : ∀ h ∈ [Head.group .curly, .mark "=>", .group .round, .mark "<"], (the "::").refuses h = true := by
    decide
  exact not_leaves hb (hrefuses head hhead)

/-- A word that is the name of a member. -/
def IsName (ts : List Tree) : Prop :=
  ∃ n us, ts = .token n :: us ∧ BehindName us

/-- The name of a member is no part of the name of an owner. -/
theorem IsName.not_leaves_part (h : IsName ts) (hts : Spelled ts) :
    ¬ Leaves fuel (simpleNameBut keywords ++ the ".") ts mid := by
  obtain ⟨n, us, rfl, hbehind⟩ := h
  intro hl
  obtain ⟨vs, hname, hdot⟩ := leaves_andThen.mp hl
  obtain ⟨ws, hword, harguments⟩ := leaves_andThen.mp hname
  obtain ⟨_, heq, -⟩ := leaves_one.mp hword
  obtain ⟨-, rfl⟩ := List.cons.inj heq
  exact hbehind.not_leaves_dot (hts.of_subset (List.subset_cons_self _ _)) harguments hdot

/-- A part of an owner can be left in one place only. -/
theorem forks_ownerPart : Forks [] fuel (simpleNameBut keywords ++ the ".") :=
  forks_simpleName.andThen .one (by decide)

/-- **In front of the name of a member its owner has one end.** -/
theorem eq_of_owner (hts : Spelled ts) (hl : Leaves fuel owner ts mid) (hl' : Leaves fuel owner ts mid')
    (hmid : IsName mid) (hmid' : IsName mid') : mid = mid' := by
  have hnone {mid : List Tree} (hname : IsName ts) (hl : Leaves fuel
      ((nameBut Words.behindMemberType ++ the "::" ++ simpleName <|> simpleNameBut Words.behindMemberType) ++ the "."
        ++ Phrase.many (simpleNameBut Words.behindMemberType ++ the ".")) ts mid) : False := by
    obtain ⟨us, hfirst, -⟩ := leaves_andThen.mp hl
    obtain ⟨vs, hstart, hdot⟩ := leaves_andThen.mp hfirst
    rcases leaves_orElse.mp hstart with hl | hl
    · obtain ⟨ws, hl, -⟩ := leaves_andThen.mp hl
      obtain ⟨xs, hword, hcolons⟩ := leaves_andThen.mp hl
      obtain ⟨n, rfl, -⟩ := leaves_one.mp hword
      obtain ⟨_, _, heq, hbehind⟩ := hname
      obtain ⟨-, rfl⟩ := List.cons.inj heq
      exact hbehind.not_leaves_colons hcolons
    · exact hname.not_leaves_part hts (leaves_andThen.mpr ⟨vs, hl, hdot⟩)
  -- No dot follows the name of a member, so the row of owners does not go on from there.
  rcases leaves_optional.mp hl with hl | rfl <;> rcases leaves_optional.mp hl' with hl' | rfl
  · obtain ⟨us, hfirst, hmore⟩ := leaves_andThen.mp hl
    obtain ⟨us', hfirst', hmore'⟩ := leaves_andThen.mp hl'
    have hstart : Forks [] fuel ((nameBut Words.behindMemberType ++ the "::" ++ simpleName
        <|> simpleNameBut Words.behindMemberType) ++ the ".") := forks_nameStart.andThen .one (by decide)
    obtain rfl := (hstart ts us us' hts hfirst hfirst').resolve_right (by simp [BeginsIn])
    exact forks_ownerPart.eq_of_many IsName (spelled_of_leaves hts hfirst) hmore hmore' hmid hmid'
      fun ws xs left hws hgood hstep _ _ => hgood.not_leaves_part hws hstep
  · exact (hnone hmid' hl).elim
  · exact (hnone hmid hl').elim
  · rfl

/-! ### Owners -/

/-- A dot or colons in front of a name may stand behind a word of a name. -/
theorem Links.of_token {m : String} (hm : m = "." ∨ m = "::") {t : Token} (ht : t.isText m = true)
    (hts : Spelled (.token t :: ts)) (h : IsNamed ts) : Links (.token t :: ts) := by
  obtain ⟨n, us, rfl, hn, -, hlinks⟩ := h
  have hmark : m ∈ Words.marks := by
    rcases hm with rfl | rfl <;> decide
  exact .part hm (hts.of_isText List.mem_cons_self hmark ht) hn hlinks

/-- So may type arguments in front of what may stand there. -/
theorem Links.in_front (h : Links mid) (hts : Spelled ts)
    (hl : Leaves fuel (Phrase.optional (rule .typeArguments)) ts mid) : Links ts := by
  rcases leaves_optional.mp hl with hl | rfl
  · obtain ⟨t, us, rfl, ht, rfl⟩ := eq_behindAngle_of_typeArguments hts hl
    exact .generic ht h
  · exact h

/-- A word is a name if what may follow a name is behind it. -/
theorem isNamed_cons (hn : (TokenClass.nameBut Words.behindMemberType).holds n = true) (h : Links us) :
    IsNamed (.token n :: us) := by
  obtain ⟨hkind, htext⟩ : n.kind = .word ∧ n.text ∉ Words.behindMemberType := by
    simpa [TokenClass.holds] using hn
  exact ⟨n, us, rfl, hkind, htext, h⟩

/-- A part of an owner stands in front of a name. -/
theorem IsNamed.in_front (h : IsNamed mid) (hts : Spelled ts)
    (hl : Leaves fuel (simpleNameBut Words.behindMemberType ++ the ".") ts mid) : IsNamed ts := by
  obtain ⟨us, hname, hdot⟩ := leaves_andThen.mp hl
  obtain ⟨vs, hword, harguments⟩ := leaves_andThen.mp hname
  obtain ⟨n, rfl, hn⟩ := leaves_one.mp hword
  obtain ⟨t, rfl, ht⟩ := leaves_one.mp hdot
  have hvs : Spelled vs := spelled_of_leaves hts hword
  exact isNamed_cons hn ((Links.of_token (.inl rfl) ht (spelled_of_leaves hvs harguments) h).in_front hvs harguments)

/-- Parts of a name in front of a name are one. -/
theorem IsNamed.in_front_many (h : IsNamed mid) (hts : Spelled ts)
    (hl : Leaves fuel (Phrase.many (simpleNameBut Words.behindMemberType ++ the ".")) ts mid) : IsNamed ts := by
  induction ts, hl using Leaves.many_induction with
  | nil => exact h
  | cons hfirst _ _ ih => exact (ih (spelled_of_leaves hts hfirst)).in_front hts hfirst

/-- An owner stands in front of a name. -/
theorem IsNamed.behind_owner (h : IsNamed mid) (hts : Spelled ts) (hl : Leaves fuel owner ts mid) : IsNamed ts := by
  rcases leaves_optional.mp hl with hl | rfl
  · obtain ⟨us, hfirst, hmore⟩ := leaves_andThen.mp hl
    obtain ⟨vs, hstart, hdot⟩ := leaves_andThen.mp hfirst
    have hus : IsNamed us := h.in_front_many (spelled_of_leaves hts hfirst) hmore
    rcases leaves_orElse.mp hstart with hl | hl
    · obtain ⟨ws, hword, hpart⟩ := leaves_andThen.mp (leaves_assoc.mp hl)
      obtain ⟨xs, hcolons, hname⟩ := leaves_andThen.mp hpart
      obtain ⟨n, rfl, hn⟩ := leaves_one.mp hword
      obtain ⟨t, rfl, ht⟩ := leaves_one.mp hcolons
      obtain ⟨ys, hsecond, harguments⟩ := leaves_andThen.mp hname
      obtain ⟨m, rfl, hm⟩ := leaves_one.mp hsecond
      obtain ⟨d, rfl, hd⟩ := leaves_one.mp hdot
      have hmkind : m.kind = .word := by
        simp only [TokenClass.holds, Bool.and_eq_true, beq_iff_eq] at hm
        exact hm.1
      have hfront : Spelled (.token t :: .token m :: ys) := hts.of_subset (List.subset_cons_self _ _)
      have hys : Spelled ys := hfront.of_subset fun t ht => List.mem_cons_of_mem _ (List.mem_cons_of_mem _ ht)
      have hlinks := (Links.of_token (.inl rfl) hd (spelled_of_leaves hys harguments) hus).in_front hys harguments
      exact isNamed_cons hn (.part (.inr rfl) (hfront.of_isText List.mem_cons_self (by decide) ht) hmkind hlinks)
    · exact hus.in_front hts (leaves_andThen.mpr ⟨vs, hl, hdot⟩)
  · exact h

/-! ### What stands in front of members -/

/-- What may stand among the modifiers of a member. -/
def memberModifier : Phrase :=
  oneOf Words.modifiers <|> the "file" ++ absent (oneOf Words.behindMemberType)

/-- A place where the type of a member and its name begin. -/
def IsTyped (fuel : Nat) (ts : List Tree) : Prop :=
  ∃ rest, Leaves fuel memberType ts rest ∧ IsNamed rest

/-- A modifier can be left in one place only. -/
theorem forks_memberModifier : Forks [] fuel memberModifier := by
  refine .of_tail fun ts mid hl => ?_
  rcases leaves_orElse.mp hl with hl | hl
  · obtain ⟨t, rfl, -⟩ := leaves_one.mp hl
    rfl
  · obtain ⟨us, hword, habsent⟩ := leaves_andThen.mp hl
    obtain ⟨t, rfl, -⟩ := leaves_one.mp hword
    exact (leaves_absent.mp habsent).1

/-- A word that is taken is not one that is to be absent. -/
theorem not_leaves_notAt {words words' : List String} (hwords : words ⊆ words') {p : Phrase} {rest : List Tree}
    (hl : Leaves fuel (oneOf words) ts mid) : ¬ Leaves fuel (notAt words' p) ts rest := by
  intro hp
  obtain ⟨us, habsent, -⟩ := leaves_andThen.mp hp
  obtain ⟨t, rfl, ht⟩ := leaves_one.mp hl
  refine (leaves_absent.mp habsent).2 mid (leaves_one.mpr ⟨t, rfl, ?_⟩)
  simp only [TokenClass.holds, Bool.and_eq_true, List.contains_iff_mem] at ht ⊢
  exact ⟨ht.1, hwords ht.2⟩

/-- Where a type begins, nothing goes on with a type. -/
theorem IsTyped.not_beginsIn (h : IsTyped fuel ts) : ¬ BeginsIn typeBreaks ts := by
  obtain ⟨rest, htype, -⟩ := h
  have hrefuses : ∀ h ∈ typeBreaks, memberType.refuses h = true := by decide
  rintro ⟨h, hh, hb⟩
  exact not_leaves hb (hrefuses h hh) htype

/-- Where a type and a name begin, a type can be taken so that a name is left. -/
theorem IsTyped.exists_type (h : IsTyped fuel ts) : ∃ rest, Leaves fuel (rule .type) ts rest ∧ IsNamed rest := by
  obtain ⟨rest, hmember, hrest⟩ := h
  obtain ⟨us, habsent, htype⟩ := leaves_andThen.mp (hrest.of_memberType hmember)
  obtain ⟨rfl, -⟩ := leaves_absent.mp habsent
  exact ⟨rest, htype, hrest⟩

/-- Where a type and a name begin, there is no name alone. -/
theorem IsTyped.not_isNamed (h : IsTyped fuel ts) (hts : Spelled ts) : ¬ IsNamed ts := fun hnamed =>
  let ⟨_, htype, hrest⟩ := h.exists_type
  hnamed.not_isNamed_of_type hts htype hrest

/-- Nor is there what may follow a word of a name. -/
theorem IsTyped.not_links (h : IsTyped fuel ts) (hts : Spelled ts) : ¬ Links ts := fun hlinks =>
  let ⟨_, htype, hrest⟩ := h.exists_type
  hlinks.not_isNamed_of_type hts htype hrest

/-- Where the word `file` is a type, its name is right behind it. -/
theorem IsTyped.isNamed_of_file {t : Token} (h : IsTyped fuel (.token t :: us)) (ht : t.isText "file" = true)
    (hts : Spelled (.token t :: us)) (hus : ¬ BeginsIn typeBreaks us) :
    IsNamed us ∧ ∀ mid, ¬ Leaves fuel (oneOf (Words.typeStart ++ Words.memberStart)) us mid := by
  have hword : Leaves fuel (the "file") (.token t :: us) us := leaves_one.mpr ⟨t, rfl, ht⟩
  constructor
  · obtain ⟨rest, htype, hrest⟩ := h.exists_type
    have hfile := startsIn_word "file" _ _ hts hword
    obtain rfl := eq_of_type_cons hts hus (fun hb => hb.disjoint hfile (by decide)) htype
    exact hrest
  · obtain ⟨rest, htype, -⟩ := h
    obtain ⟨vs, habsent, -⟩ := leaves_andThen.mp htype
    obtain ⟨ws, href, hfile⟩ := leaves_andThen.mp habsent
    obtain ⟨rfl, -⟩ := leaves_absent.mp href
    obtain ⟨rfl, hnone⟩ := leaves_absent.mp hfile
    exact fun mid hl => hnone mid (leaves_andThen.mpr ⟨us, hword, hl⟩)

/-! ### The beginnings of members and types -/

/-- What tells a type behind its modifiers. -/
def typeKeyword : Phrase :=
  oneOf Words.typeDeclarations <|> the "ref" ++ the "struct" <|> the "delegate" ++ rule .type

/-- A place where a member or a type goes on behind its modifiers. -/
def IsStart (fuel : Nat) (ts : List Tree) : Prop :=
  IsTyped fuel ts ∨ ∃ rest, Leaves fuel typeKeyword ts rest

/-- Where a member or a type begins, nothing goes on with a type. -/
theorem IsStart.not_beginsIn (h : IsStart fuel ts) : ¬ BeginsIn typeBreaks ts := by
  rcases h with h | ⟨rest, hl⟩
  · exact h.not_beginsIn
  · have hrefuses : ∀ h ∈ typeBreaks, typeKeyword.refuses h = true := by decide
    rintro ⟨h, hh, hb⟩
    exact not_leaves hb (hrefuses h hh) hl

/-- Nor is there what may follow a word of a name. -/
theorem IsStart.not_links (h : IsStart fuel ts) (hts : Spelled ts) : ¬ Links ts := by
  rcases h with h | ⟨rest, hl⟩
  · exact h.not_links hts
  · exact fun hlinks => hlinks.not_leaves (by decide) hl

/-- One of some words is one of more words. -/
theorem leaves_oneOf_mono {words words' : List String} (hwords : words ⊆ words') (hl : Leaves fuel (oneOf words) ts mid) :
    Leaves fuel (oneOf words') ts mid := by
  obtain ⟨t, rfl, ht⟩ := leaves_one.mp hl
  refine leaves_one.mpr ⟨t, rfl, ?_⟩
  simp only [TokenClass.holds, Bool.and_eq_true, List.contains_iff_mem] at ht ⊢
  exact ⟨ht.1, hwords ht.2⟩

/-- A word of some words is one of them. -/
theorem leaves_oneOf_of_the {word : String} {words : List String} (hword : word ∈ words)
    (hl : Leaves fuel (the word) ts mid) : Leaves fuel (oneOf words) ts mid := by
  obtain ⟨t, rfl, ht⟩ := leaves_one.mp hl
  refine leaves_one.mpr ⟨t, rfl, ?_⟩
  simp only [TokenClass.holds, Token.isText, Bool.and_eq_true, List.contains_iff_mem, beq_iff_eq] at ht ⊢
  exact ⟨ht.1, ht.2 ▸ hword⟩

/-- A type begins with a word that tells it. -/
theorem exists_oneOf_of_typeKeyword (hl : Leaves fuel typeKeyword ts us) :
    ∃ mid, Leaves fuel (oneOf ("ref" :: "delegate" :: Words.typeDeclarations)) ts mid := by
  rcases leaves_orElse.mp hl with hl | hl
  · exact ⟨us, leaves_oneOf_mono (by decide) hl⟩
  · rcases leaves_orElse.mp hl with hl | hl
    · obtain ⟨mid, hword, -⟩ := leaves_andThen.mp hl
      exact ⟨mid, leaves_oneOf_of_the (by decide) hword⟩
    · obtain ⟨mid, hword, -⟩ := leaves_andThen.mp hl
      exact ⟨mid, leaves_oneOf_of_the (by decide) hword⟩

/-- A word of some is none of others. -/
theorem not_leaves_oneOf {words words' : List String} (hwords : ∀ w ∈ words, w ∉ words')
    (hl : Leaves fuel (oneOf words) ts mid) : ¬ Leaves fuel (oneOf words') ts us := by
  intro hl'
  obtain ⟨t, rfl, ht⟩ := leaves_one.mp hl
  obtain ⟨_, heq, ht'⟩ := leaves_one.mp hl'
  obtain ⟨htoken, -⟩ := List.cons.inj heq
  obtain rfl := Tree.token.inj htoken
  simp only [TokenClass.holds, Bool.and_eq_true, List.contains_iff_mem] at ht ht'
  exact hwords _ ht.2 ht'.2

/-- The word of a delegate is no type of a member. -/
theorem IsTyped.not_leaves_delegate (h : IsTyped fuel ts) (hts : Spelled ts) :
    ¬ Leaves fuel (the "delegate" ++ rule .type) ts us := by
  intro hl
  obtain ⟨rest, htype, -⟩ := h.exists_type
  obtain ⟨head, hhead, hb⟩ := (startsIn_word "delegate").andThen ts us hts hl
  have hothers : ∀ h ∈ [Head.word "delegate", .mark "delegate"],
      (the "ref" ++ (the "readonly" ++ rule .type <|> notAt ["readonly"] (rule .type))).refuses h = true ∧
        (the "scoped" ++ rule .type).refuses h = true ∧ (namedType ++ pointers ++ ranks).refuses h = true := by
    decide
  obtain ⟨href, hscoped, hnamed⟩ := hothers head hhead
  obtain ⟨vs, hword, hbehind⟩ := leaves_andThen.mp hl
  obtain ⟨t, rfl, -⟩ := leaves_one.mp hword
  obtain ⟨less, rfl, htype⟩ := exists_of_leaves_rule htype
  have hvalue := (leaves_orElse_right hb hscoped).mp ((leaves_orElse_right hb href).mp htype)
  obtain ⟨less, rfl, hvalue⟩ := exists_of_leaves_rule hvalue
  have hpointer := (leaves_orElse_right hb hnamed).mp hvalue
  obtain ⟨ws, hpointer, -⟩ := leaves_andThen.mp (leaves_assoc.mp hpointer)
  obtain ⟨xs, hstar⟩ := exists_star_of_functionPointer hpointer
  have hbreak := startsIn_the (m := "*") (by decide) vs xs (spelled_of_leaves hts hword) hstar
  exact not_beginsIn_of_type hbehind (hbreak.mono (by decide))

/-- Where a member or a type begins with no such word, there is no name alone. -/
theorem IsStart.not_isNamed (h : IsStart fuel ts) (hts : Spelled ts)
    (hnone : ∀ mid, ¬ Leaves fuel (oneOf (Words.typeStart ++ Words.memberStart)) ts mid) : ¬ IsNamed ts := by
  rcases h with h | ⟨rest, hl⟩
  · exact h.not_isNamed hts
  · obtain ⟨mid, hl⟩ := exists_oneOf_of_typeKeyword hl
    exact absurd (leaves_oneOf_mono (by decide) hl) (hnone mid)

/-- **Modifiers end** in front of the type of a member: behind the word `file`, which may be a type, there is neither a
member nor a type then. -/
theorem IsTyped.not_of_modifier (h : IsTyped fuel ts) (hts : Spelled ts) (hstep : Leaves fuel modifier ts us)
    (hmore : Leaves fuel (Phrase.many modifier) us mid) : ¬ IsStart fuel mid := by
  intro hmid
  obtain ⟨t, rfl, ht⟩ := leaves_one.mp hstep
  have hfile : t.isText "file" = true := by
    obtain ⟨rest, htype, hrest⟩ := h
    simp only [TokenClass.holds, Token.isText, Bool.and_eq_true, List.contains_iff_mem, List.mem_cons,
      beq_iff_eq] at ht ⊢
    refine ⟨ht.1, ht.2.resolve_right fun hmem => ?_⟩
    have hmodifier : Leaves fuel (oneOf Words.modifiers) (.token t :: us) us := leaves_one.mpr ⟨t, rfl, by
      simpa only [TokenClass.holds, Bool.and_eq_true, List.contains_iff_mem] using ⟨ht.1, hmem⟩⟩
    exact not_leaves_notAt (by decide) hmodifier (hrest.of_memberType htype)
  have hus : Spelled us := hts.of_subset (List.subset_cons_self _ _)
  rcases leaves_many.mp hmore with rfl | ⟨vs, hnext, -, hrest⟩
  · obtain ⟨hnamed, hnone⟩ := h.isNamed_of_file hfile hts hmid.not_beginsIn
    exact hmid.not_isNamed hus hnone hnamed
  · -- a second word `file` would be the name, and then neither a modifier nor a type is behind it
    have hbreaks : ¬ BeginsIn typeBreaks us := by
      have hrefuses : ∀ h ∈ typeBreaks, modifier.refuses h = true := by decide
      rintro ⟨h, hh, hb⟩
      exact not_leaves hb (hrefuses h hh) hnext
    obtain ⟨n, ws, rfl, -, -, hlinks⟩ := (h.isNamed_of_file hfile hts hbreaks).1
    obtain ⟨_, heq, -⟩ := leaves_one.mp hnext
    obtain ⟨-, rfl⟩ := List.cons.inj heq
    obtain rfl : mid = ws := (leaves_many.mp hrest).resolve_right <| by
      rintro ⟨_, hl, _⟩
      exact hlinks.not_leaves (by decide) hl
    exact hmid.not_links (hus.of_subset (List.subset_cons_self _ _)) hlinks

/-- A modifier can be left in one place only. -/
theorem forks_modifier : Forks [] fuel modifier := .one

/-- A modifier of a member is a modifier. -/
theorem modifier_of_memberModifier (ts us : List Tree) (hl : Leaves fuel memberModifier ts us) :
    Leaves fuel modifier ts us := by
  rcases leaves_orElse.mp hl with hl | hl
  · exact leaves_oneOf_mono (by decide) hl
  · obtain ⟨mid, hword, habsent⟩ := leaves_andThen.mp hl
    obtain ⟨rfl, -⟩ := leaves_absent.mp habsent
    exact leaves_oneOf_of_the (by decide) hword

/-- In front of the type of a member stand attributes and modifiers. -/
theorem exists_of_memberDecorations (hl : Leaves fuel memberDecorations ts mid) :
    ∃ us, Leaves fuel (Phrase.many (rule .attributes)) ts us ∧ Leaves fuel (Phrase.many memberModifier) us mid := by
  obtain ⟨us, hfirst, hmodifiers⟩ := leaves_andThen.mp hl
  obtain ⟨vs, habsent, hattributes⟩ := leaves_andThen.mp hfirst
  obtain ⟨rfl, -⟩ := leaves_absent.mp habsent
  exact ⟨us, hattributes, hmodifiers⟩

/-- What begins like a member or a type, behind its attributes. -/
def behindAttributes : Phrase :=
  Phrase.many memberModifier ++ memberType <|> Phrase.many modifier ++ typeKeyword

/-- Behind attributes and modifiers, what begins with a type and a name can be taken. -/
theorem IsTyped.exists_behindAttributes (h : IsTyped fuel mid) (hl : Leaves fuel (Phrase.many memberModifier) us mid) :
    ∃ rest, Leaves fuel behindAttributes us rest :=
  let ⟨rest, htype, _⟩ := h
  ⟨rest, leaves_orElse.mpr (.inl (leaves_andThen.mpr ⟨mid, hl, htype⟩))⟩

/-- **In front of the type of a member, what stands in front of it has one end.** -/
theorem eq_of_memberDecorations (hts : Spelled ts) (hl : Leaves fuel memberDecorations ts mid)
    (hl' : Leaves fuel memberDecorations ts mid') (hmid : IsTyped fuel mid) (hmid' : IsTyped fuel mid') :
    mid = mid' := by
  obtain ⟨us, hattributes, hmodifiers⟩ := exists_of_memberDecorations hl
  obtain ⟨us', hattributes', hmodifiers'⟩ := exists_of_memberDecorations hl'
  obtain rfl : us = us' := eq_of_attributes (p := behindAttributes) (by decide) hts hattributes hattributes'
    (hmid.exists_behindAttributes hmodifiers) (hmid'.exists_behindAttributes hmodifiers')
  refine forks_memberModifier.eq_of_many (IsTyped fuel) (spelled_of_leaves hts hattributes) hmodifiers hmodifiers' hmid
    hmid' fun vs ws left hvs hgood hstep hmore hleft => ?_
  exact hgood.not_of_modifier hvs (modifier_of_memberModifier vs ws hstep) (hmore.many_mono modifier_of_memberModifier)
    (.inl hleft)

/-- **What is a member is no type.** -/
theorem IsTyped.not_leaves_type (h : IsTyped fuel mid) (hts : Spelled ts) (hl : Leaves fuel memberDecorations ts mid) :
    ¬ Leaves fuel (decorations ++ typeKeyword) ts us := by
  intro hl'
  obtain ⟨vs, hattributes, hmodifiers⟩ := exists_of_memberDecorations hl
  obtain ⟨left, hdecorations, hkeyword⟩ := leaves_andThen.mp hl'
  obtain ⟨vs', hattributes', hmodifiers'⟩ := leaves_andThen.mp hdecorations
  obtain rfl : vs = vs' := eq_of_attributes (p := behindAttributes) (by decide) hts hattributes hattributes'
    (h.exists_behindAttributes hmodifiers)
    ⟨us, leaves_orElse.mpr (.inr (leaves_andThen.mpr ⟨left, hmodifiers', hkeyword⟩))⟩
  have hvs : Spelled vs := spelled_of_leaves hts hattributes
  have hmid : Spelled mid := spelled_of_leaves hvs hmodifiers
  have hnone (hl : Leaves fuel typeKeyword mid us) : False := by
    obtain ⟨rest, htype, hrest⟩ := id h
    rcases leaves_orElse.mp hl with hl | hl
    · exact not_leaves_notAt (by decide) hl (hrest.of_memberType htype)
    · rcases leaves_orElse.mp hl with hl | hl
      · obtain ⟨ws, habsent, -⟩ := leaves_andThen.mp htype
        obtain ⟨xs, href, -⟩ := leaves_andThen.mp habsent
        exact (leaves_absent.mp href).2 us hl
      · exact h.not_leaves_delegate hmid hl
  -- Modifiers of a member are modifiers of a type, so one row of them goes on where the other one stops.
  rcases forks_modifier.comparable hvs (hmodifiers.many_mono modifier_of_memberModifier) hmodifiers' with
    hmore | hmore
  · rcases leaves_many.mp hmore with rfl | ⟨ws, hstep, -, hrest⟩
    · exact hnone hkeyword
    · exact h.not_of_modifier hmid hstep hrest (.inr ⟨us, hkeyword⟩)
  · rcases leaves_many.mp hmore with rfl | ⟨ws, hstep, -⟩
    · exact hnone hkeyword
    · obtain ⟨xs, hkeyword⟩ := exists_oneOf_of_typeKeyword hkeyword
      exact not_leaves_oneOf (by decide) hstep hkeyword

/-! ### What is behind the names of members -/

/-- A body begins with a semicolon, an arrow or a brace. -/
theorem startsIn_body : StartsIn [.mark ";", .mark "=>", .group .curly] fuel (rule .body) := by
  have hblock {fuel : Nat} : StartsIn [.group .curly] fuel (rule .block) := .rule fun _ => startsIn_within
  have harrow {fuel : Nat} : StartsIn [.mark "=>"] fuel (the "=>" ++ rule .expression ++ the ";") :=
    (startsIn_the (by decide)).andThen.andThen
  exact .rule fun fuel => ((startsIn_the (m := ";") (by decide)).mono (by decide)).orElse
    ((hblock.mono (by decide)).orElse (harrow.mono (by decide)))

/-- What is behind the parentheses of a method. -/
theorem closes_of_leaves (hts : Spelled ts) (hl : Leaves fuel (constraints ++ rule .body) ts mid) : Closes ts := by
  obtain ⟨us, hconstraints, hbody⟩ := leaves_andThen.mp hl
  rcases leaves_many.mp hconstraints with rfl | ⟨vs, hfirst, -⟩
  · exact .body (startsIn_body us mid hts hbody)
  · obtain ⟨ws, hcolon, -⟩ := leaves_andThen.mp hfirst
    obtain ⟨xs, hstart, -⟩ := leaves_andThen.mp hcolon
    obtain ⟨ys, hword, hname⟩ := leaves_andThen.mp hstart
    have hstart := startsIn_word "where" ts ys hts hword
    obtain ⟨t, rfl, -⟩ := leaves_one.mp hword
    obtain ⟨n, rfl, hn⟩ := leaves_one.mp hname
    simp only [TokenClass.holds, Bool.and_eq_true, beq_iff_eq] at hn
    exact .demand hstart hn.1

/-- What is behind the type parameters of a method is behind its name. -/
theorem behindName_of_leaves (hts : Spelled ts) (hl : Leaves fuel methodTypeParameters ts us) (hus : Opens us) :
    BehindName ts := by
  rcases leaves_optional.mp hl with hl | rfl
  · obtain ⟨t, vs, rfl, ht, rfl⟩ := isAngled_typeParameters (by decide) ts us hts hl
    exact .generic ht hus
  · exact .plain hus

/-- In front of its parentheses the type parameters of a method have one end. -/
theorem eq_of_methodTypeParameters (hts : Spelled ts) (hl : Leaves fuel methodTypeParameters ts us)
    (hl' : Leaves fuel methodTypeParameters ts mid) (hus : (Head.group .round).Begins us)
    (hmid : (Head.group .round).Begins mid) : us = mid := by
  have hnone {us : List Tree} (hround : (Head.group .round).Begins us) : ¬ BeginsIn [.mark "<"] us := fun hb =>
    hb.disjoint ⟨_, List.mem_singleton_self _, hround⟩ (by decide)
  have hforks := (isAngled_typeParameters (by decide)).optional ts us mid hts hl hl'
  exact hforks.resolve_right (not_or.mpr ⟨hnone hus, hnone hmid⟩)

/-! ### Members -/

/-- A list is divided into what stands in front of a member, its type, its owner, its name, and what is behind that. -/
structure MemberHead (fuel : Nat) (ts type owned : List Tree) (name : Token) (rest : List Tree) : Prop where
  decorations : Leaves fuel memberDecorations ts type
  type : Leaves fuel memberType type owned
  owner : Leaves fuel owner owned (.token name :: rest)
  name : (TokenClass.nameBut Words.behindMemberType).holds name = true

namespace MemberHead

variable {type type' owned owned' rest rest' : List Tree} {name name' : Token}

/-- The name of a member stands behind its type. -/
theorem isNamed (h : MemberHead fuel ts type owned name rest) (hts : Spelled ts) (hrest : BehindName rest) : IsNamed owned :=
  (isNamed_cons h.name hrest.links).behind_owner (spelled_of_leaves (spelled_of_leaves hts h.decorations) h.type) h.owner

/-- The type of a member stands in front of its name. -/
theorem isTyped (h : MemberHead fuel ts type owned name rest) (hts : Spelled ts) (hrest : BehindName rest) :
    IsTyped fuel type :=
  ⟨owned, h.type, h.isNamed hts hrest⟩

/-- A member has a type. -/
theorem type_ne (h : MemberHead fuel ts type owned name rest) (hts : Spelled ts) (hrest : BehindName rest) :
    type ≠ owned := by
  rintro rfl
  exact (h.isTyped hts hrest).not_isNamed (spelled_of_leaves hts h.decorations) (h.isNamed hts hrest)

/-- What is behind the name. -/
theorem leaves (h : MemberHead fuel ts type owned name rest) :
    Leaves fuel (memberDecorations ++ memberType ++ Rule.owner ++ memberName) ts rest :=
  leaves_andThen.mpr ⟨_, leaves_andThen.mpr ⟨_, leaves_andThen.mpr ⟨_, h.decorations, h.type⟩, h.owner⟩,
    leaves_one.mpr ⟨name, rfl, h.name⟩⟩

/-- **A member has one division.** -/
theorem unique (h : MemberHead fuel ts type owned name rest) (h' : MemberHead fuel ts type' owned' name' rest')
    (hts : Spelled ts) (hrest : BehindName rest) (hrest' : BehindName rest') :
    type = type' ∧ owned = owned' ∧ name = name' ∧ rest = rest' := by
  obtain rfl : type = type' := eq_of_memberDecorations hts h.decorations h'.decorations (h.isTyped hts hrest)
    (h'.isTyped hts hrest')
  have htype : Spelled type := spelled_of_leaves hts h.decorations
  obtain rfl : owned = owned' := eq_of_memberType htype h.type h'.type (h.isNamed hts hrest) (h'.isNamed hts hrest')
  have heq := eq_of_owner (spelled_of_leaves htype h.type) h.owner h'.owner ⟨_, _, rfl, hrest⟩ ⟨_, _, rfl, hrest'⟩
  obtain ⟨hname, rfl⟩ := List.cons.inj heq
  exact ⟨rfl, rfl, Tree.token.inj hname, rfl⟩

end MemberHead

end InteropStubs.Phrase
