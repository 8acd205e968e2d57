import InteropStubs.Proofs.Phrase.TypeEnds

/-!
# Names behind types

Behind the type of a member stands its name, perhaps with the interface in front that it belongs to, and then what the
member is made of (`Phrase.IsNamed`). No type leads from one such place to another one, so that the type of a member
has one end (`eq_of_memberType`): a type that began at the name would have to go on behind it, and a name is followed by
parentheses, braces or an arrow, or by more of the name (`Phrase.Links`), but by no further name.
-/

namespace InteropStubs.Phrase

open Rule
open InteropStubs.Tree (Spelled behindAngle)

variable {fuel : Nat} {keywords : List String} {t n : Token} {ts us mid mid' : List Tree}

/-! ### What is behind names -/

/-- What is behind the parentheses of a method: its body, or what is demanded of a type parameter. -/
inductive Closes : List Tree → Prop
  | body {ts : List Tree} (h : BeginsIn [.mark ";", .mark "=>", .group .curly] ts) : Closes ts
  | demand {t : Tree} {name : Token} {rest : List Tree}
      (h : BeginsIn [.word "where", .mark "where"] (t :: .token name :: rest)) (hname : name.kind = .word) :
      Closes (t :: .token name :: rest)

/-- What is behind the name and the type parameters of a member. -/
inductive Opens : List Tree → Prop
  | property {ts : List Tree} (h : BeginsIn [.group .curly, .mark "=>"] ts) : Opens ts
  | method {opening closing : Token} {inner rest : List Tree} (h : Closes rest) :
      Opens (.group .round opening inner (.present closing) :: rest)

/-- What is behind the name of a member. -/
inductive BehindName : List Tree → Prop
  | plain {ts : List Tree} (h : Opens ts) : BehindName ts
  | generic {t : Token} {us : List Tree} (ht : (Head.mark "<").of (.token t)) (h : Opens (behindAngle 0 us)) :
      BehindName (.token t :: us)

/-- What is behind a word of a name of which more may follow. -/
inductive Links : List Tree → Prop
  | opens {ts : List Tree} (h : Opens ts) : Links ts
  | generic {t : Token} {us : List Tree} (ht : (Head.mark "<").of (.token t)) (h : Links (behindAngle 0 us)) :
      Links (.token t :: us)
  | part {m : String} {t n : Token} {us : List Tree} (hm : m = "." ∨ m = "::") (ht : (Head.mark m).of (.token t))
      (hn : n.kind = .word) (h : Links us) : Links (.token t :: .token n :: us)

/-- The name of a member, behind its type. -/
def IsNamed (ts : List Tree) : Prop :=
  ∃ n us, ts = .token n :: us ∧ n.kind = .word ∧ n.text ∉ Words.behindMemberType ∧ Links us

/-- The heads of what is behind a word of a name. -/
def linkHeads : List Head :=
  [.group .curly, .mark "=>", .group .round, .mark "<", .mark ".", .mark "::"]

/-- What is behind the name and the type parameters of a member begins with a body or with parentheses. -/
theorem Opens.begins (h : Opens ts) : BeginsIn [.group .curly, .mark "=>", .group .round] ts := by
  cases h with
  | property h => exact h.mono (by decide)
  | method h => exact ⟨.group .round, by decide, rfl⟩

/-- What is behind the name of a member may stand behind any word of a name. -/
theorem BehindName.links (h : BehindName ts) : Links ts := by
  cases h with
  | plain h => exact .opens h
  | generic ht h => exact .generic ht (.opens h)

/-- What is behind a word of a name begins with a body, with a bracket or with what goes on with the name. -/
theorem Links.begins (h : Links ts) : BeginsIn linkHeads ts := by
  cases h with
  | opens h => exact h.begins.mono (by decide)
  | generic ht h => exact ⟨.mark "<", by decide, ht⟩
  | @part m t n us hm ht => exact ⟨.mark m, by rcases hm with rfl | rfl <;> decide, ht⟩

/-- A phrase fits behind no name, if it refuses whatever is there. -/
theorem Links.not_leaves {p : Phrase} (h : Links ts) (hp : ∀ head ∈ linkHeads, p.refuses head = true) :
    ¬ Leaves fuel p ts mid := by
  obtain ⟨head, hhead, hb⟩ := h.begins
  exact Phrase.not_leaves hb (hp head hhead)

/-- A list that begins with a word begins with no mark. -/
theorem not_beginsIn_of_word {stops : List Head} (hn : n.kind = .word)
    (hstops : ∀ h ∈ stops, h ≠ .name ∧ ∀ s, h ≠ .word s) : ¬ BeginsIn stops (.token n :: us) := by
  rintro ⟨h, hh, hb⟩
  obtain ⟨hname, hword⟩ := hstops h hh
  have hself : (Head.word n.text).Begins (.token n :: us) := ⟨hn, rfl⟩
  exact hword _ (eq_of_begins hb hself hname (by simp))

/-- It does not begin with a word. -/
theorem Links.ne_word (h : Links ts) (hn : n.kind = .word) : ts ≠ .token n :: us := by
  rintro rfl
  exact not_beginsIn_of_word hn (by simp [linkHeads]) h.begins

/-- The name of a member is not what is behind a word of a name. -/
theorem IsNamed.not_links (h : IsNamed ts) : ¬ Links ts := by
  obtain ⟨n, us, rfl, hn, -⟩ := h
  exact fun hlinks => hlinks.ne_word hn rfl

/-- Nor does it go on with a type. -/
theorem IsNamed.not_beginsIn (h : IsNamed ts) : ¬ BeginsIn typeBreaks ts := by
  obtain ⟨n, us, rfl, hn, -⟩ := h
  exact not_beginsIn_of_word hn (by simp [typeBreaks, nameBreaks])

theorem beginsIn_of {h : Head} (ht : h.of (.token t)) : BeginsIn [h] (.token t :: us) := by
  refine ⟨h, List.mem_singleton_self h, ?_⟩
  cases h <;> first | exact ht | exact ht.elim

/-- Behind a list in angle brackets the name may still go on. -/
theorem Links.behind_angle (h : Links (.token t :: us)) (ht : (Head.mark "<").of (.token t)) :
    Links (behindAngle 0 us) := by
  cases h with
  | opens h => exact (h.begins.disjoint (beginsIn_of ht) (by decide)).elim
  | generic _ h => exact h
  | part hm ht' =>
      obtain rfl := ht.2.symm.trans ht'.2
      exact absurd hm (by decide)

/-- So it may behind a dot or colons and one more word. -/
theorem Links.behind_mark {m : String} (hm : m = "." ∨ m = "::") (h : Links (.token t :: .token n :: us))
    (ht : (Head.mark m).of (.token t)) : Links us := by
  have hmarks : BeginsIn [.mark ".", .mark "::"] (.token t :: .token n :: us) :=
    ⟨.mark m, by rcases hm with rfl | rfl <;> decide, ht⟩
  cases h with
  | opens h => exact (h.begins.disjoint hmarks (by decide)).elim
  | generic ht' h => exact ((beginsIn_of ht').disjoint hmarks (by decide)).elim
  | part _ _ _ h => exact h

/-! ### Types behind names -/

/-- So it may behind type arguments that are taken. -/
theorem Links.of_typeArguments (h : Links ts) (hts : Spelled ts)
    (hl : Leaves fuel (Phrase.optional (rule .typeArguments)) ts mid) : Links mid := by
  rcases leaves_optional.mp hl with hl | rfl
  · obtain ⟨t, us, rfl, ht, rfl⟩ := eq_behindAngle_of_typeArguments hts hl
    exact h.behind_angle ht
  · exact h

/-- A mark in front of a further word of a name. -/
theorem Links.of_part {m : String} (hm : m = "." ∨ m = "::") (h : Links ts) (hts : Spelled ts)
    (hl : Leaves fuel (the m ++ simpleName) ts mid) : Links mid := by
  obtain ⟨us, hmark, hname⟩ := leaves_andThen.mp hl
  obtain ⟨vs, hword, harguments⟩ := leaves_andThen.mp hname
  obtain ⟨t, rfl, ht⟩ := leaves_one.mp hmark
  obtain ⟨n, rfl, -⟩ := leaves_one.mp hword
  have hmark : m ∈ Words.marks := by
    rcases hm with rfl | rfl <;> decide
  have hvs : Spelled vs := hts.of_subset fun t ht => List.mem_cons_of_mem _ (List.mem_cons_of_mem _ ht)
  exact (h.behind_mark hm (hts.of_isText List.mem_cons_self hmark ht)).of_typeArguments hvs harguments

/-- So it may behind all parts that are taken. -/
theorem Links.of_parts (h : Links ts) (hts : Spelled ts)
    (hl : Leaves fuel (Phrase.many (the "." ++ simpleName)) ts mid) : Links mid := by
  induction ts, hl using Leaves.many_induction with
  | nil => exact h
  | cons hfirst _ _ ih => exact ih (h.of_part (.inl rfl) hts hfirst) (spelled_of_leaves hts hfirst)

/-- More of a name leads from behind a word to behind a word. -/
theorem Links.of_qualifiedName (h : Links us) (hts : Spelled (.token n :: us))
    (hl : Leaves fuel (qualifiedNameBut keywords) (.token n :: us) mid) : Links mid := by
  have hus : Spelled us := hts.of_subset (List.subset_cons_self _ _)
  obtain ⟨vs, hfirst, hparts⟩ := leaves_andThen.mp hl
  have hvs : Links vs := by
    rcases leaves_orElse.mp hfirst with hl | hl
    · obtain ⟨ws, hname, hpart⟩ := leaves_andThen.mp (leaves_assoc.mp hl)
      obtain ⟨_, heq, -⟩ := leaves_one.mp hname
      obtain ⟨-, rfl⟩ := List.cons.inj heq
      exact h.of_part (.inr rfl) hus hpart
    · obtain ⟨ws, hname, harguments⟩ := leaves_andThen.mp hl
      obtain ⟨_, heq, -⟩ := leaves_one.mp hname
      obtain ⟨-, rfl⟩ := List.cons.inj heq
      exact h.of_typeArguments hus harguments
  exact hvs.of_parts (spelled_of_leaves hts hfirst) hparts

/-- So it may behind a type that begins with the word. -/
theorem Links.of_valueType (h : Links us) (hts : Spelled (.token n :: us))
    (hl : Leaves fuel (rule .valueType) (.token n :: us) mid) : Links mid := by
  obtain ⟨less, rfl, hphrase⟩ := exists_of_leaves_rule hl
  have hsame {p : Phrase} {us mid : List Tree} (h : Links us) (hp : ∀ head ∈ linkHeads, p.passes head = true)
      (hl : Leaves less p us mid) : mid = us := by
    obtain ⟨head, hhead, hb⟩ := h.begins
    exact eq_of_leaves hb (hp head hhead) hl
  rcases leaves_orElse.mp hphrase with hl | hl
  · obtain ⟨vs, hl, hranks⟩ := leaves_andThen.mp hl
    obtain ⟨ws, hnamed, hpointers⟩ := leaves_andThen.mp hl
    have hws : Links ws := by
      rcases leaves_orElse.mp hnamed with hl | hl
      · obtain ⟨_, heq, -⟩ := leaves_one.mp hl
        obtain ⟨-, rfl⟩ := List.cons.inj heq
        exact h
      · rcases leaves_orElse.mp hl with hl | hl
        · obtain ⟨_, _, _, heq, -⟩ := leaves_within.mp hl
          exact absurd heq (by simp)
        · obtain ⟨xs, habsent, hname⟩ := leaves_andThen.mp hl
          obtain ⟨rfl, -⟩ := leaves_absent.mp habsent
          exact h.of_qualifiedName hts hname
    obtain rfl := hsame hws (by decide) hpointers
    obtain rfl := hsame hws (by decide) hranks
    exact hws
  · obtain ⟨vs, hl, -⟩ := leaves_andThen.mp (leaves_assoc.mp hl)
    obtain ⟨xs, hstar⟩ := exists_star_of_functionPointer hl
    exact absurd hstar (h.not_leaves (by decide))

/-- What is behind the parentheses of a method does not go on with a type. -/
theorem Closes.not_beginsIn (h : Closes ts) : ¬ BeginsIn typeBreaks ts := by
  cases h with
  | demand h => exact fun hbreaks => hbreaks.disjoint h (by decide)
  | body h => exact fun hbreaks => hbreaks.disjoint h (by decide)

/-- Nor is it the name of a member. -/
theorem Closes.not_isNamed (h : Closes ts) : ¬ IsNamed ts := by
  rintro ⟨n, us, rfl, hn, -, hlinks⟩
  cases h with
  | demand h hname => exact hlinks.ne_word hname rfl
  | body h => exact not_beginsIn_of_word hn (by simp) h

/-- A type that begins behind a word of a name is a tuple in the place of the parentheses. -/
theorem Links.not_isNamed_of_type (h : Links ts) (hts : Spelled ts) (hl : Leaves fuel (rule .type) ts mid) :
    ¬ IsNamed mid := by
  obtain ⟨opening, closing, inner, rest, rfl, hcloses⟩ : ∃ opening closing inner rest,
      ts = .group .round opening inner (.present closing) :: rest ∧ Closes rest := by
    have hrefuses {stops : List Head} (hb : BeginsIn stops ts)
        (hstops : ∀ head ∈ stops, (rule .type).refuses head = true) : False := by
      obtain ⟨head, hhead, hb⟩ := hb
      exact Phrase.not_leaves hb (hstops head hhead) hl
    cases h with
    | opens h =>
        cases h with
        | property h => exact (hrefuses h (by decide)).elim
        | method h => exact ⟨_, _, _, _, rfl, h⟩
    | generic ht => exact (hrefuses (beginsIn_of ht) (by decide)).elim
    | part hm ht => exact (hrefuses (beginsIn_of ht) (by rcases hm with rfl | rfl <;> decide)).elim
  have hround : BeginsIn [.group .round] (.group .round opening inner (.present closing) :: rest) :=
    ⟨.group .round, List.mem_singleton_self _, rfl⟩
  obtain rfl := eq_of_type_cons hts hcloses.not_beginsIn (fun hb => hb.disjoint hround (by decide)) hl
  exact hcloses.not_isNamed

/-- **No type leads from a name to a name.** -/
theorem IsNamed.not_isNamed_of_type (h : IsNamed ts) (hts : Spelled ts) (hl : Leaves fuel (rule .type) ts mid) :
    ¬ IsNamed mid := by
  obtain ⟨n, us, rfl, -, -, hlinks⟩ := h
  have hus : Spelled us := hts.of_subset (List.subset_cons_self _ _)
  obtain ⟨less, rfl, hphrase⟩ := exists_of_leaves_rule hl
  have hbehind {w : String} {p : Phrase} (hl : Leaves less (the w ++ p) (.token n :: us) mid) :
      Leaves less p us mid := by
    obtain ⟨vs, hword, hl⟩ := leaves_andThen.mp hl
    obtain ⟨_, heq, -⟩ := leaves_one.mp hword
    obtain ⟨-, rfl⟩ := List.cons.inj heq
    exact hl
  rcases leaves_orElse.mp hphrase with hl | hl
  · rcases leaves_orElse.mp (hbehind hl) with hl | hl
    · exact absurd hl (hlinks.not_leaves (by decide))
    · obtain ⟨vs, habsent, htype⟩ := leaves_andThen.mp hl
      obtain ⟨rfl, -⟩ := leaves_absent.mp habsent
      exact hlinks.not_isNamed_of_type hus htype
  · rcases leaves_orElse.mp hl with hl | hl
    · exact hlinks.not_isNamed_of_type hus (hbehind hl)
    · exact fun hmid => hmid.not_links (hlinks.of_valueType hts hl)

/-- **In front of a name a type has one end.** -/
theorem eq_of_type_isNamed (hts : Spelled ts) (hl : Leaves fuel (rule .type) ts mid)
    (hl' : Leaves fuel (rule .type) ts mid') (hmid : IsNamed mid) (hmid' : IsNamed mid') : mid = mid' := by
  rcases eq_or_goesOn hts hl hl' hmid.not_beginsIn hmid'.not_beginsIn with heq | ⟨⟨less, hmore⟩, -⟩ | ⟨⟨less, hmore⟩, -⟩
  · exact heq
  · exact absurd hmid' (hmid.not_isNamed_of_type (spelled_of_leaves hts hl) hmore)
  · exact absurd hmid (hmid'.not_isNamed_of_type (spelled_of_leaves hts hl') hmore)

/-! ### Types of members -/

/-- In front of a name, the type of a member is a type and nothing else. -/
theorem IsNamed.of_memberType (hl : Leaves fuel memberType ts mid) (hmid : IsNamed mid) :
    Leaves fuel (notAt Words.memberStart (rule .type)) ts mid := by
  obtain ⟨us, habsent, htype⟩ := leaves_andThen.mp hl
  obtain ⟨vs, hfirst, hsecond⟩ := leaves_andThen.mp habsent
  obtain ⟨rfl, -⟩ := leaves_absent.mp hsecond
  obtain ⟨rfl, -⟩ := leaves_absent.mp hfirst
  rcases leaves_orElse.mp htype with hl | hl
  · -- behind the word `scoped` there would be one of the words that are no names
    obtain ⟨us, hahead, hword⟩ := leaves_andThen.mp hl
    obtain ⟨rfl, hahead⟩ := leaves_absent.mp hahead
    obtain ⟨t, rfl, ht⟩ := leaves_one.mp hword
    obtain ⟨n, vs, rfl, hn, hname, -⟩ := hmid
    refine absurd (leaves_absent.mpr ⟨rfl, fun left hl => ?_⟩) (hahead _)
    obtain ⟨ws, hfirst, hbehind⟩ := leaves_andThen.mp hl
    obtain ⟨_, heq, -⟩ := leaves_one.mp hfirst
    obtain ⟨-, rfl⟩ := List.cons.inj heq
    obtain ⟨_, heq, hholds⟩ := leaves_one.mp hbehind
    obtain ⟨htoken, -⟩ := List.cons.inj heq
    obtain rfl := Tree.token.inj htoken
    simp only [TokenClass.holds, Bool.and_eq_true, List.contains_iff_mem] at hholds
    exact hname hholds.2
  · obtain ⟨us, habsent, hplain⟩ := leaves_andThen.mp hl
    obtain ⟨rfl, -⟩ := leaves_absent.mp habsent
    exact hplain

/-- **In front of a name the type of a member has one end.** -/
theorem eq_of_memberType (hts : Spelled ts) (hl : Leaves fuel memberType ts mid)
    (hl' : Leaves fuel memberType ts mid') (hmid : IsNamed mid) (hmid' : IsNamed mid') : mid = mid' := by
  obtain ⟨us, habsent, htype⟩ := leaves_andThen.mp (hmid.of_memberType hl)
  obtain ⟨us', habsent', htype'⟩ := leaves_andThen.mp (hmid'.of_memberType hl')
  obtain ⟨rfl, -⟩ := leaves_absent.mp habsent
  obtain ⟨rfl, -⟩ := leaves_absent.mp habsent'
  exact eq_of_type_isNamed hts htype htype' hmid hmid'

end InteropStubs.Phrase
