import InteropStubs.Proofs.Phrase.Angles

/-!
# Where types end

A type may be left in several places, but behind a part of a type stands what goes on with it (`typeBreaks`), and with
one exception nothing else does: the word `scoped` is a type of its own, or it belongs to the type behind it
(`eq_or_goesOn`). So in front of something that begins no type, a type has one end.
-/

namespace InteropStubs.Phrase

open Rule
open InteropStubs.Tree (Spelled)

variable {fuel : Nat} {p : Phrase} {keywords : List String} {ts us mid mid' : List Tree}

/-- What goes on with a name. -/
def nameBreaks : List Head :=
  [.mark "<", .mark "::", .mark "."]

/-- What goes on with a type. -/
def typeBreaks : List Head :=
  nameBreaks ++ [.mark "?", .mark "*", .group .square]

/-- A word is taken only where it stands. -/
theorem startsIn_word (w : String) : StartsIn [.word w, .mark w] fuel (the w) := by
  intro ts rest _ hl
  obtain ⟨t, rfl, ht⟩ := leaves_one.mp hl
  obtain ⟨hkind | hkind, htext⟩ : (t.kind = .word ∨ t.kind = .mark) ∧ t.text = w := by
    simpa [TokenClass.holds, Token.isText] using ht
  · exact ⟨.word w, by simp, hkind, htext⟩
  · exact ⟨.mark w, by simp, hkind, htext⟩

/-! ### Names -/

/-- A phrase reads a list in angle brackets, which its first token opens. -/
def IsAngled (fuel : Nat) (p : Phrase) : Prop :=
  ∀ ts rest, Spelled ts → Leaves fuel p ts rest →
    ∃ t us, ts = .token t :: us ∧ (Head.mark "<").of (.token t) ∧ rest = Tree.behindAngle 0 us

theorem isAngled_typeArguments : IsAngled fuel (rule .typeArguments) := fun _ _ hts hl =>
  eq_behindAngle_of_typeArguments hts hl

theorem isAngled_typeParameters (hkeywords : keywords ∈ [[], Words.typeStart]) :
    IsAngled fuel (typeParametersBut keywords) := fun _ _ hts hl =>
  eq_behindAngle_of_typeParameters hkeywords hts hl

/-- A list in angle brackets begins with one. -/
theorem IsAngled.startsIn (hp : IsAngled fuel p) : StartsIn [.mark "<"] fuel p := by
  intro ts rest hts hl
  obtain ⟨t, us, rfl, ht, -⟩ := hp ts rest hts hl
  exact ⟨_, List.mem_cons_self, ht⟩

/-- It ends with its angle bracket and nowhere else. -/
theorem IsAngled.forks (hp : IsAngled fuel p) : Forks [] fuel p := by
  intro ts mid mid' hts hl hl'
  obtain ⟨t, us, rfl, -, rfl⟩ := hp ts mid hts hl
  obtain ⟨t', us', heq, -, rfl⟩ := hp _ mid' hts hl'
  obtain ⟨-, rfl⟩ := List.cons.inj heq
  exact .inl rfl

/-- Where it may be missing, it goes on with its angle bracket. -/
theorem IsAngled.optional (hp : IsAngled fuel p) : Forks [.mark "<"] fuel (Phrase.optional p) :=
  (hp.forks.mono (List.nil_subset _)).optional hp.startsIn

theorem startsIn_namePart : StartsIn [.mark "."] fuel (the "." ++ simpleName) :=
  (startsIn_the (by decide)).andThen

/-- A simple name may go on with type arguments. -/
theorem forks_simpleName : Forks [.mark "<"] fuel (simpleNameBut keywords) :=
  Forks.one.next isAngled_typeArguments.optional

/-- The first word of a name, perhaps behind an alias. -/
theorem forks_nameStart : Forks [.mark "<", .mark "::"] fuel
    (nameBut keywords ++ the "::" ++ simpleName <|> simpleNameBut keywords) := by
  have halias : Forks [.mark "<"] fuel (nameBut keywords ++ the "::" ++ simpleName) :=
    (Forks.one.next .one).next forks_simpleName
  refine (halias.mono (by simp)).orElse (forks_simpleName.mono (by simp)) fun ts mid mid' hts hl hl' => ?_
  -- a double colon follows the name, so that no type arguments do
  obtain ⟨us, hl, -⟩ := leaves_andThen.mp hl
  obtain ⟨vs, hname, hcolons⟩ := leaves_andThen.mp hl
  obtain ⟨vs', hname', harguments⟩ := leaves_andThen.mp hl'
  obtain ⟨t, rfl, -⟩ := leaves_one.mp hname
  obtain ⟨t', heq, -⟩ := leaves_one.mp hname'
  obtain ⟨-, rfl⟩ := List.cons.inj heq
  obtain ⟨h, hh, hb⟩ := startsIn_the (m := "::") (by decide) vs us (spelled_of_leaves hts hname) hcolons
  obtain rfl := List.mem_singleton.mp hh
  obtain rfl := (leaves_optional_of_refuses hb (by decide)).mp harguments
  exact .inr ⟨_, by simp, hb⟩

/-- A name goes on with a dot, colons or type arguments. -/
theorem forks_qualifiedName : Forks nameBreaks fuel (qualifiedNameBut keywords) := by
  have hpart : Forks [.mark "<"] fuel (the "." ++ simpleName) := Forks.one.next forks_simpleName
  exact forks_nameStart.andThen (hpart.many (startsIn_namePart.mono (by simp [nameBreaks])) (by decide)) (by decide)

/-! ### Types -/

/-- So does a type that is a name. -/
theorem forks_namedType : Forks nameBreaks fuel namedType := by
  have hname : Forks nameBreaks fuel
      (absent (the "scoped" ++ oneOf Words.typeStart) ++ qualifiedNameBut Words.typeStart) :=
    Forks.absent.next forks_qualifiedName
  have htoken {ts mid : List Tree}
      (hl : Leaves fuel (absent (the "scoped" ++ oneOf Words.typeStart) ++ qualifiedNameBut Words.typeStart) ts mid) :
      ∃ t us, ts = .token t :: us ∧ (TokenClass.nameBut Words.typeStart).holds t = true := by
    obtain ⟨us, habsent, hname⟩ := leaves_andThen.mp hl
    obtain ⟨rfl, -⟩ := leaves_absent.mp habsent
    obtain ⟨vs, hfirst, -⟩ := leaves_andThen.mp hname
    rcases leaves_orElse.mp hfirst with hl | hl
    · obtain ⟨ws, hl, -⟩ := leaves_andThen.mp hl
      obtain ⟨xs, hname, -⟩ := leaves_andThen.mp hl
      obtain ⟨t, rfl, ht⟩ := leaves_one.mp hname
      exact ⟨t, xs, rfl, ht⟩
    · obtain ⟨xs, hname, -⟩ := leaves_andThen.mp hl
      obtain ⟨t, rfl, ht⟩ := leaves_one.mp hname
      exact ⟨t, xs, rfl, ht⟩
  refine Forks.one.orElse (Forks.within.orElse hname fun ts mid mid' _ hl hl' => ?_) fun ts mid mid' _ hl hl' => ?_
  · obtain ⟨opening, inner, closing, rfl, -⟩ := leaves_within.mp hl
    obtain ⟨t, us, heq, -⟩ := htoken hl'
    exact absurd heq (by simp)
  · obtain ⟨t, rfl, ht⟩ := leaves_one.mp hl
    rcases leaves_orElse.mp hl' with hl' | hl'
    · obtain ⟨opening, inner, closing, heq, -⟩ := leaves_within.mp hl'
      exact absurd heq (by simp)
    · obtain ⟨t', us, heq, ht'⟩ := htoken hl'
      obtain ⟨heq, -⟩ := List.cons.inj heq
      obtain rfl := Tree.token.inj heq
      have hbuiltIn : t.text ∈ Words.predefined := by
        simp only [TokenClass.holds, Bool.and_eq_true, List.contains_iff_mem] at ht
        exact ht.2
      have hfree : t.text ∉ Words.typeStart := by simpa [TokenClass.holds] using (Bool.and_eq_true_iff.mp ht').2
      exact absurd (List.mem_append_left _ hbuiltIn) hfree

theorem startsIn_nullable : StartsIn [.mark "?"] fuel nullable :=
  (startsIn_the (by decide)).andThen

theorem startsIn_rank : StartsIn [.group .square] fuel (rank ++ Phrase.optional nullable) :=
  startsIn_within.andThen

/-- Stars go on with a star. -/
theorem forks_stars : Forks [.mark "*"] fuel (many (the "*")) := by
  have hstar : Forks [] fuel (the "*") := .one
  exact hstar.many (startsIn_the (by decide)) (by simp)

/-- The marks of pointers go on with a star or a question mark. -/
theorem forks_pointers : Forks [.mark "?", .mark "*"] fuel pointers := by
  have hnullable : Forks [.mark "*"] fuel nullable := Forks.one.next forks_stars
  refine (hnullable.mono (by simp)).orElse (forks_stars.mono (by simp)) fun ts mid mid' hts hl hl' => ?_
  obtain ⟨h, hh, hb⟩ := startsIn_nullable ts mid hts hl
  obtain rfl := List.mem_singleton.mp hh
  obtain rfl := (leaves_many_of_refuses hb (by decide)).mp hl'
  exact .inr ⟨_, by simp, hb⟩

/-- Ranks go on with such a mark or with square brackets. -/
theorem forks_ranks : Forks [.mark "?", .mark "*", .group .square] fuel ranks := by
  have hnullable : Forks [.mark "?", .mark "*"] fuel nullable := Forks.one.next (forks_stars.mono (by simp))
  have hone : Forks [.mark "?", .mark "*"] fuel (rank ++ Phrase.optional nullable) :=
    Forks.within.next (hnullable.optional (startsIn_nullable.mono (by simp)))
  exact hone.many (startsIn_rank.mono (by simp)) (by decide)

/-- A pointer to a function begins with `delegate`. -/
theorem startsIn_functionPointer : StartsIn [.word "delegate", .mark "delegate"] fuel functionPointer :=
  fun ts rest hts hl => (startsIn_word "delegate").andThen.andThen.andThen ts rest hts (of_leaves_functionPointer hl)

/-- Behind the word of a pointer to a function there is a star. -/
theorem exists_star_of_functionPointer {t : Tree} (hl : Leaves fuel functionPointer (t :: us) mid) :
    ∃ vs, Leaves fuel (the "*") us vs := by
  obtain ⟨vs, hhead, -⟩ := leaves_andThen.mp (of_leaves_functionPointer hl)
  obtain ⟨ws, hstart, -⟩ := leaves_andThen.mp hhead
  obtain ⟨xs, hword, hstar⟩ := leaves_andThen.mp hstart
  obtain ⟨_, heq, -⟩ := leaves_one.mp hword
  obtain ⟨-, rfl⟩ := List.cons.inj heq
  exact ⟨ws, hstar⟩

/-- It can be left in one place only. -/
theorem forks_functionPointer : Forks [] fuel functionPointer := by
  have hconvention : Forks [.group .square] fuel (the "managed" <|> the "unmanaged"
      ++ Phrase.optional (squares (list name))) := by
    refine Forks.one.orElse (Forks.one.next (Forks.within.optional startsIn_within)) fun ts mid mid' hts hl hl' => ?_
    obtain ⟨us, hl', -⟩ := leaves_andThen.mp hl'
    obtain ⟨t, rfl, ht⟩ := leaves_one.mp hl
    obtain ⟨t', heq, ht'⟩ := leaves_one.mp hl'
    obtain ⟨heq, -⟩ := List.cons.inj heq
    obtain rfl := Tree.token.inj heq
    simp only [TokenClass.holds, Token.isText, Bool.and_eq_true, beq_iff_eq] at ht ht'
    exact absurd (ht.2.symm.trans ht'.2) (by decide)
  have hstops : [Head.group .square] ⊆ [.word "managed", .mark "managed", .word "unmanaged", .mark "unmanaged",
      .group .square] := by simp
  have hstart : StartsIn [.word "managed", .mark "managed", .word "unmanaged", .mark "unmanaged", .group .square] fuel
      (the "managed" <|> the "unmanaged" ++ Phrase.optional (squares (list name))) :=
    ((startsIn_word "managed").mono (by simp)).orElse ((startsIn_word "unmanaged").andThen.mono (by simp))
  have hhead : Forks [.word "managed", .mark "managed", .word "unmanaged", .mark "unmanaged", .group .square] fuel
      pointerHead := (Forks.one.next .one).next ((hconvention.mono hstops).optional hstart)
  have hpointer := hhead.andThen (levels_pointedTypes (levels_angleRules fuel)).forks (by decide)
  exact fun ts mid mid' hts hl hl' =>
    hpointer ts mid mid' hts (of_leaves_functionPointer hl) (of_leaves_functionPointer hl')

/-- **A type that is not passed by reference** goes on with its breaks only. -/
theorem forks_valueType : Forks typeBreaks fuel (rule .valueType) := by
  refine Forks.rule fun fuel => ?_
  have hnamed : Forks (nameBreaks ++ [.mark "?", .mark "*"]) fuel (namedType ++ pointers) :=
    forks_namedType.andThen (forks_pointers.mono (by simp)) (by decide)
  have htype : Forks typeBreaks fuel (namedType ++ pointers ++ ranks) :=
    hnamed.andThen (forks_ranks.mono (by simp [typeBreaks])) (by decide)
  have hpointer : Forks typeBreaks fuel (functionPointer ++ many (the "*") ++ ranks) :=
    (forks_functionPointer.next forks_stars).andThen (forks_ranks.mono (by simp [typeBreaks])) (by decide)
  refine htype.orElse hpointer fun ts mid mid' hts hl hl' => ?_
  -- the word `delegate` begins no other type
  obtain ⟨h, hh, hb⟩ := startsIn_functionPointer.andThen.andThen ts mid' hts hl'
  have hrefuses : ∀ h ∈ [Head.word "delegate", .mark "delegate"], (namedType ++ pointers ++ ranks).refuses h = true := by
    decide
  exact absurd hl (not_leaves hb (hrefuses h hh))

/-- A value type whose first tree is not followed by a break is that tree. -/
theorem eq_of_valueType_cons {t : Tree} (hts : Spelled (t :: us)) (hus : ¬ BeginsIn typeBreaks us)
    (hl : Leaves fuel (rule .valueType) (t :: us) mid) : mid = us := by
  obtain ⟨less, rfl, hphrase⟩ := exists_of_leaves_rule hl
  have husSpelled : Spelled us := hts.of_subset (List.subset_cons_self _ _)
  have hnone {stops : List Head} (hstops : stops ⊆ typeBreaks) : ¬ BeginsIn stops us := fun hb =>
    hus (hb.mono hstops)
  have hranks {mid : List Tree} (hl : Leaves less ranks us mid) : mid = us :=
    startsIn_rank.many_eq husSpelled (hnone (by decide)) hl
  rcases leaves_orElse.mp hphrase with hl | hl
  · obtain ⟨vs, hl, hend⟩ := leaves_andThen.mp hl
    obtain ⟨ws, hl, hpointers⟩ := leaves_andThen.mp hl
    obtain rfl : ws = us := by
      rcases leaves_orElse.mp hl with hl | hl
      · obtain ⟨_, heq, -⟩ := leaves_one.mp hl
        exact (List.cons.inj heq).2.symm
      · rcases leaves_orElse.mp hl with hl | hl
        · obtain ⟨_, _, _, heq, -⟩ := leaves_within.mp hl
          exact (List.cons.inj heq).2.symm
        · obtain ⟨xs, habsent, hname⟩ := leaves_andThen.mp hl
          obtain ⟨rfl, -⟩ := leaves_absent.mp habsent
          obtain ⟨ys, hfirst, hmore⟩ := leaves_andThen.mp hname
          obtain rfl : ys = us := by
            rcases leaves_orElse.mp hfirst with hl | hl
            · obtain ⟨zs, hl, -⟩ := leaves_andThen.mp hl
              obtain ⟨zs', hname, hcolons⟩ := leaves_andThen.mp hl
              obtain ⟨_, heq, -⟩ := leaves_one.mp hname
              obtain ⟨-, rfl⟩ := List.cons.inj heq
              have hb := startsIn_the (m := "::") (by decide) us zs husSpelled hcolons
              exact absurd hb (hnone (by decide))
            · obtain ⟨zs, hname, harguments⟩ := leaves_andThen.mp hl
              obtain ⟨_, heq, -⟩ := leaves_one.mp hname
              obtain ⟨-, rfl⟩ := List.cons.inj heq
              exact isAngled_typeArguments.startsIn.optional_eq husSpelled (hnone (by decide)) harguments
          exact startsIn_namePart.many_eq husSpelled (hnone (by decide)) hmore
    obtain rfl : vs = ws := by
      rcases leaves_orElse.mp hpointers with hl | hl
      · exact absurd (startsIn_nullable ws vs husSpelled hl) (hnone (by decide))
      · exact (startsIn_the (by decide)).many_eq husSpelled (hnone (by decide : [Head.mark "*"] ⊆ typeBreaks)) hl
    exact hranks hend
  · obtain ⟨vs, hl, -⟩ := leaves_andThen.mp (leaves_assoc.mp hl)
    obtain ⟨xs, hstar⟩ := exists_star_of_functionPointer hl
    exact absurd (startsIn_the (m := "*") (by decide) us xs husSpelled hstar) (hnone (by decide))

/-- A type whose first tree is neither one of the words in front of types nor followed by a break is that tree. -/
theorem eq_of_type_cons {t : Tree} (hts : Spelled (t :: us)) (hus : ¬ BeginsIn typeBreaks us)
    (ht : ¬ BeginsIn [.word "ref", .mark "ref", .word "scoped", .mark "scoped"] (t :: us))
    (hl : Leaves fuel (rule .type) (t :: us) mid) : mid = us := by
  obtain ⟨less, rfl, hphrase⟩ := exists_of_leaves_rule hl
  rcases leaves_orElse.mp hphrase with hl | hl
  · exact absurd (((startsIn_word "ref").andThen _ _ hts hl).mono (by decide)) ht
  · rcases leaves_orElse.mp hl with hl | hl
    · exact absurd (((startsIn_word "scoped").andThen _ _ hts hl).mono (by decide)) ht
    · exact eq_of_valueType_cons hts hus hl

/-- A type begins where nothing goes on with another one. -/
theorem not_beginsIn_of_type (hl : Leaves fuel (rule .type) ts mid) : ¬ BeginsIn typeBreaks ts := by
  have hrefuses : ∀ h ∈ typeBreaks, (rule .type).refuses h = true := by decide
  rintro ⟨h, hh, hb⟩
  exact not_leaves hb (hrefuses h hh) hl

/-- Two phrases that begin with one token each, read from one list. -/
theorem exists_behind_one {c c' : TokenClass} {q q' : Phrase} (hl : Leaves fuel (one c ++ q) ts mid)
    (hl' : Leaves fuel (one c' ++ q') ts mid') : ∃ t us, ts = .token t :: us ∧ c.holds t = true ∧ c'.holds t = true ∧
      Leaves fuel q us mid ∧ Leaves fuel q' us mid' := by
  obtain ⟨us, hfirst, hq⟩ := leaves_andThen.mp hl
  obtain ⟨us', hfirst', hq'⟩ := leaves_andThen.mp hl'
  obtain ⟨t, rfl, ht⟩ := leaves_one.mp hfirst
  obtain ⟨t', heq, ht'⟩ := leaves_one.mp hfirst'
  obtain ⟨htoken, rfl⟩ := List.cons.inj heq
  obtain rfl := Tree.token.inj htoken
  exact ⟨t, us, rfl, ht, ht', hq, hq'⟩

/-- Where the word `scoped` is a type in front of a type, a type may end behind the word, or go on. In front of
parentheses, whatever they are, it may always end there. -/
def GoesOn (fuel : Nat) (ts mid mid' : List Tree) : Prop :=
  (∃ less, Leaves less (rule .type) mid mid') ∧ ∃ t front, ts = t :: front ++ mid ∧
    ∀ us, (Head.group .round).Begins us → Leaves fuel (rule .type) (t :: front ++ us) us

/-- The same with words in front that may stand in front of any such type. -/
theorem GoesOn.append (words : List Tree) (h : GoesOn fuel us mid mid')
    (hwords : ∀ more left, more.head? = us.head? → Leaves fuel (rule .type) more left →
      Leaves (fuel + 1) (rule .type) (words ++ more) left) : GoesOn (fuel + 1) (words ++ us) mid mid' := by
  obtain ⟨hmore, t, front, rfl, hround⟩ := h
  have hall (vs : List Tree) (hvs : (Head.group .round).Begins vs) :
      Leaves (fuel + 1) (rule .type) (words ++ (t :: front ++ vs)) vs := hwords _ vs rfl (hround vs hvs)
  cases words with
  | nil => exact ⟨hmore, t, front, rfl, hall⟩
  | cons w words => exact ⟨hmore, w, words ++ t :: front, by simp, fun vs hvs => by simpa using hall vs hvs⟩

/-- The word `scoped` is a type in front of parentheses. -/
theorem leaves_scoped {t : Token} (ht : t.isText "scoped" = true)
    (hl : Leaves fuel (rule .valueType) (.token t :: us) mid) (hmid : (Head.group .round).Begins mid') :
    Leaves fuel (rule .valueType) (.token t :: mid') mid' := by
  have hname : (TokenClass.nameBut Words.typeStart).holds t = true := by
    obtain ⟨hkind, htext⟩ : (t.kind = .word ∨ t.kind = .mark) ∧ t.text = "scoped" := by
      simpa [Token.isText] using ht
    rcases hkind with hkind | hkind
    · simp [TokenClass.holds, hkind, htext]
      decide
    · exact absurd hl (not_leaves (h := .mark "scoped") ⟨hkind, htext⟩ (by decide))
  obtain ⟨less, rfl, hphrase⟩ := exists_of_leaves_rule hl
  have habsent : Leaves less (absent (the "scoped" ++ oneOf Words.typeStart)) (.token t :: mid') (.token t :: mid') := by
    refine leaves_absent.mpr ⟨rfl, fun left hl => ?_⟩
    obtain ⟨vs, hword, hstart⟩ := leaves_andThen.mp hl
    obtain ⟨_, heq, -⟩ := leaves_one.mp hword
    obtain ⟨-, rfl⟩ := List.cons.inj heq
    exact not_leaves hmid (by decide) hstart
  have hword : Leaves less (simpleNameBut Words.typeStart) (.token t :: mid') mid' :=
    leaves_andThen.mpr ⟨mid', leaves_one.mpr ⟨t, rfl, hname⟩, leaves_optional.mpr (.inr rfl)⟩
  have hqualified : Leaves less (qualifiedNameBut Words.typeStart) (.token t :: mid') mid' :=
    leaves_andThen.mpr ⟨mid', leaves_orElse.mpr (.inr hword), leaves_many_refl _⟩
  have hnamed : Leaves less namedType (.token t :: mid') mid' :=
    leaves_orElse.mpr (.inr (leaves_orElse.mpr (.inr (leaves_andThen.mpr ⟨_, habsent, hqualified⟩))))
  have hpointers : Leaves less pointers mid' mid' := leaves_orElse.mpr (.inr (leaves_many_refl _))
  exact leaves_rule.mpr (leaves_orElse.mpr (.inl (leaves_andThen.mpr
    ⟨mid', leaves_andThen.mpr ⟨mid', hnamed, hpointers⟩, leaves_many_refl _⟩)))

/-- Two ends of a type are one, or the type goes on from one of them to the other. -/
def OneEnd (fuel : Nat) (ts mid mid' : List Tree) : Prop :=
  mid = mid' ∨ GoesOn fuel ts mid mid' ∨ GoesOn fuel ts mid' mid

/-- Words in front of two ends of a type keep them apart in the same way. -/
theorem OneEnd.append (words : List Tree) (h : OneEnd fuel us mid mid')
    (hwords : ∀ more left, more.head? = us.head? → Leaves fuel (rule .type) more left →
      Leaves (fuel + 1) (rule .type) (words ++ more) left) : OneEnd (fuel + 1) (words ++ us) mid mid' :=
  h.imp_right (Or.imp (·.append words hwords) (·.append words hwords))

/-- No phrase that a word may not begin is read where one begins with the word. -/
theorem not_leaves_of_word {w : String} {q : Phrase} (hts : Spelled ts) (hl : Leaves fuel (the w ++ q) ts mid)
    (hp : ∀ h ∈ [Head.word w, .mark w], p.refuses h = true) : ¬ Leaves fuel p ts mid' := by
  obtain ⟨h, hh, hb⟩ := (startsIn_word w).andThen ts mid hts hl
  exact not_leaves hb (hp h hh)

/-- Whether a token is absent is told by the first tree. -/
theorem leaves_absent_one_congr {c : TokenClass} (hl : Leaves fuel (absent (one c)) us mid)
    (hts : ts.head? = us.head?) : Leaves fuel (absent (one c)) ts ts := by
  obtain ⟨-, hnone⟩ := leaves_absent.mp hl
  refine leaves_absent.mpr ⟨rfl, fun left hl => ?_⟩
  obtain ⟨t, rfl, ht⟩ := leaves_one.mp hl
  obtain ⟨vs, rfl⟩ : ∃ vs, us = .token t :: vs := List.head?_eq_some_iff.mp hts.symm
  exact hnone vs (leaves_one.mpr ⟨t, rfl, ht⟩)

/-- Where the word `scoped` stands in front of a type and a value type is read as well, that is the word. -/
theorem goesOn_of_scoped (hts : Spelled ts) (hl : Leaves fuel (the "scoped" ++ rule .type) ts mid)
    (hl' : Leaves fuel (rule .valueType) ts mid') : GoesOn (fuel + 1) ts mid' mid := by
  obtain ⟨us, hword, htype⟩ := leaves_andThen.mp hl
  obtain ⟨t, rfl, ht⟩ := leaves_one.mp hword
  obtain rfl := eq_of_valueType_cons hts (not_beginsIn_of_type htype) hl'
  refine ⟨⟨fuel, htype⟩, .token t, [], rfl, fun us hus => leaves_rule.mpr ?_⟩
  exact leaves_orElse.mpr (.inr (leaves_orElse.mpr (.inr (leaves_scoped ht hl' hus))))

/-- Behind `ref` a type is read, with the word `readonly` in front of it or without. -/
theorem oneEnd_of_ref (ih : ∀ {ts}, Spelled ts → Leaves fuel (rule .type) ts mid → Leaves fuel (rule .type) ts mid' →
      OneEnd fuel ts mid mid')
    (hts : Spelled ts)
    (hl : Leaves fuel (the "ref" ++ (the "readonly" ++ rule .type <|> notAt ["readonly"] (rule .type))) ts mid)
    (hl' : Leaves fuel (the "ref" ++ (the "readonly" ++ rule .type <|> notAt ["readonly"] (rule .type))) ts mid') :
    OneEnd (fuel + 1) ts mid mid' := by
  obtain ⟨t, us, rfl, ht, -, hl, hl'⟩ := exists_behind_one hl hl'
  have hus : Spelled us := hts.of_subset (List.subset_cons_self _ _)
  have hnot : ∀ h ∈ [Head.word "readonly", .mark "readonly"],
      (notAt ["readonly"] (rule .type)).refuses h = true := by decide
  rcases leaves_orElse.mp hl with hl | hl <;> rcases leaves_orElse.mp hl' with hl' | hl'
  · obtain ⟨t', us, rfl, ht', -, htype, htype'⟩ := exists_behind_one hl hl'
    refine (ih (hus.of_subset (List.subset_cons_self _ _)) htype htype').append [.token t, .token t']
      fun more left _ hl => leaves_rule.mpr (leaves_orElse.mpr (.inl ?_))
    have hreadonly := leaves_andThen.mpr ⟨_, leaves_one.mpr ⟨t', rfl, ht'⟩, hl⟩
    exact leaves_andThen.mpr ⟨_, leaves_one.mpr ⟨t, rfl, ht⟩, leaves_orElse.mpr (.inl hreadonly)⟩
  · exact absurd hl' (not_leaves_of_word hus hl hnot)
  · exact absurd hl (not_leaves_of_word hus hl' hnot)
  · obtain ⟨vs, habsent, htype⟩ := leaves_andThen.mp hl
    obtain ⟨vs', habsent', htype'⟩ := leaves_andThen.mp hl'
    obtain ⟨rfl, -⟩ := leaves_absent.mp habsent
    obtain ⟨rfl, -⟩ := leaves_absent.mp habsent'
    refine (ih hus htype htype').append [.token t] fun more left hmore hl => leaves_rule.mpr (leaves_orElse.mpr (.inl ?_))
    have hplain := leaves_andThen.mpr ⟨_, leaves_absent_one_congr habsent hmore, hl⟩
    exact leaves_andThen.mpr ⟨_, leaves_one.mpr ⟨t, rfl, ht⟩, leaves_orElse.mpr (.inr hplain)⟩

/-- **A type has one end**, or it goes on behind the word `scoped`. By induction on the rules: what stands behind the
words in front of a type is a type itself. -/
theorem eq_or_goesOn (hts : Spelled ts) (hl : Leaves fuel (rule .type) ts mid) (hl' : Leaves fuel (rule .type) ts mid')
    (hmid : ¬ BeginsIn typeBreaks mid) (hmid' : ¬ BeginsIn typeBreaks mid') : OneEnd fuel ts mid mid' := by
  induction fuel generalizing ts with
  | zero =>
      obtain ⟨n, hn, -⟩ := hl
      exact absurd hn List.not_mem_nil
  | succ fuel ih =>
      rcases leaves_orElse.mp (leaves_rule.mp hl) with hl | hl <;>
        rcases leaves_orElse.mp (leaves_rule.mp hl') with hl' | hl'
      · exact oneEnd_of_ref ih hts hl hl'
      · exact absurd hl' (not_leaves_of_word hts hl (by decide))
      · exact absurd hl (not_leaves_of_word hts hl' (by decide))
      rcases leaves_orElse.mp hl with hl | hl <;> rcases leaves_orElse.mp hl' with hl' | hl'
      · obtain ⟨t, us, rfl, ht, -, htype, htype'⟩ := exists_behind_one hl hl'
        refine (ih (hts.of_subset (List.subset_cons_self _ _)) htype htype').append [.token t]
          fun more left _ hl => leaves_rule.mpr (leaves_orElse.mpr (.inr (leaves_orElse.mpr (.inl ?_))))
        exact leaves_andThen.mpr ⟨_, leaves_one.mpr ⟨t, rfl, ht⟩, hl⟩
      · exact .inr (.inr (goesOn_of_scoped hts hl hl'))
      · exact .inr (.inl (goesOn_of_scoped hts hl' hl))
      · exact (forks_valueType ts mid mid' hts hl hl').imp_right fun h => absurd h (not_or.mpr ⟨hmid, hmid'⟩)

end InteropStubs.Phrase
