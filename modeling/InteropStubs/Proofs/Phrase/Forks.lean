import InteropStubs.Proofs.Phrase.Terminated

/-!
# Where phrases may be left

A phrase can be left in several places, but most of them are of no use, because what stands there goes on with the
phrase and with nothing else. `Phrase.Forks` says that of two places where a phrase is left one begins with such a
head, if the places differ. So if something else follows, the phrase has one end.

`Phrase.Ends` says the same of one list that is known; here nothing is known of the list.
-/

namespace InteropStubs.Phrase

open InteropStubs.Tree (Spelled)

/-- A list begins with one of some heads. -/
def BeginsIn (stops : List Head) (ts : List Tree) : Prop :=
  ∃ h ∈ stops, h.Begins ts

/-- If a phrase can be left in two places, one of them begins with one of `stops`. -/
def Forks (stops : List Head) (fuel : Nat) (p : Phrase) : Prop :=
  ∀ ts mid mid', Spelled ts → Leaves fuel p ts mid → Leaves fuel p ts mid' →
    mid = mid' ∨ BeginsIn stops mid ∨ BeginsIn stops mid'

/-- A phrase takes something only where a list begins with one of `stops`. -/
def StartsIn (stops : List Head) (fuel : Nat) (p : Phrase) : Prop :=
  ∀ ts rest, Spelled ts → Leaves fuel p ts rest → BeginsIn stops ts

variable {stops stops' early : List Head} {fuel : Nat} {p q : Phrase} {ts mid mid' : List Tree}

/-- What is left of spelled trees is spelled. -/
theorem spelled_of_leaves (hts : Spelled ts) (hl : Leaves fuel p ts mid) : Spelled mid :=
  hts.of_subset hl.suffix.subset

/-- A rule is entered to take its phrase. -/
theorem exists_of_leaves_rule {r : Rule} (hl : Leaves fuel (rule r) ts mid) :
    ∃ less, fuel = less + 1 ∧ Leaves less r.phrase ts mid := by
  cases fuel with
  | zero =>
      obtain ⟨n, hn, -⟩ := hl
      exact absurd hn List.not_mem_nil
  | succ fuel => exact ⟨fuel, rfl, leaves_rule.mp hl⟩

/-- A list that begins with one of some heads begins with one of more heads. -/
theorem BeginsIn.mono (h : BeginsIn stops ts) (hstops : stops ⊆ stops') : BeginsIn stops' ts :=
  let ⟨head, hhead, hb⟩ := h
  ⟨head, hstops hhead, hb⟩

/-- Of two heads that a list begins with, each says the same, unless one says that a word is not reserved. -/
theorem eq_of_begins {h h' : Head} (hb : h.Begins ts) (hb' : h'.Begins ts) (hh : h ≠ .name) (hh' : h' ≠ .name) :
    h = h' := by
  cases ts with
  | nil => cases h <;> cases h' <;> simp_all [Head.Begins]
  | cons t ts =>
      cases t with
      | token t => cases h <;> cases h' <;> simp_all [Head.Begins, Head.of]
      | group b opening inner closing =>
          cases closing <;> cases h <;> cases h' <;> simp_all [Head.Begins, Head.of]

/-- A list does not begin in two ways. -/
theorem BeginsIn.disjoint (h : BeginsIn stops ts) (h' : BeginsIn stops' ts)
    (hne : ∀ a ∈ stops, ∀ b ∈ stops', a ≠ b ∧ a ≠ .name ∧ b ≠ .name) : False := by
  obtain ⟨a, ha, hb⟩ := h
  obtain ⟨a', ha', hb'⟩ := h'
  obtain ⟨hne, hname, hname'⟩ := hne a ha a' ha'
  exact hne (eq_of_begins hb hb' hname hname')

/-! ### Beginnings -/

/-- A mark is taken only where it stands. -/
theorem startsIn_the {m : String} (hm : m ∈ Words.marks) : StartsIn [.mark m] fuel (the m) := by
  intro ts rest hts hl
  obtain ⟨t, rfl, ht⟩ := leaves_one.mp hl
  exact ⟨_, List.mem_cons_self, hts.of_isText List.mem_cons_self hm ht⟩

/-- A group is taken only where one stands. -/
theorem startsIn_within {b : Bracket} : StartsIn [.group b] fuel (within b p) := by
  intro ts rest _ hl
  obtain ⟨opening, inner, closing, rfl, -⟩ := leaves_within.mp hl
  exact ⟨_, List.mem_cons_self, rfl⟩

/-- Phrases in a row begin as the first one does. -/
theorem StartsIn.andThen (hp : StartsIn stops fuel p) : StartsIn stops fuel (p ++ q) := by
  intro ts rest hts hl
  obtain ⟨mid, hfirst, -⟩ := leaves_andThen.mp hl
  exact hp ts mid hts hfirst

/-- An alternative begins as one of its phrases does. -/
theorem StartsIn.orElse (hp : StartsIn stops fuel p) (hq : StartsIn stops fuel q) :
    StartsIn stops fuel (p <|> q) := by
  intro ts rest hts hl
  exact (leaves_orElse.mp hl).elim (hp ts rest hts) (hq ts rest hts)

theorem StartsIn.mono (hp : StartsIn stops fuel p) (hstops : stops ⊆ stops') : StartsIn stops' fuel p :=
  fun ts rest hts hl => (hp ts rest hts hl).mono hstops

/-- A rule begins as its phrase does. -/
theorem StartsIn.rule {r : Rule} (hp : ∀ fuel, StartsIn stops fuel r.phrase) : StartsIn stops fuel (rule r) := by
  intro ts rest hts hl
  obtain ⟨less, rfl, hl⟩ := exists_of_leaves_rule hl
  exact hp less ts rest hts hl

/-- Where a phrase does not begin, it is left out. -/
theorem StartsIn.optional_eq (hp : StartsIn stops fuel p) (hts : Spelled ts) (hnone : ¬ BeginsIn stops ts)
    (hl : Leaves fuel (Phrase.optional p) ts mid) : mid = ts :=
  (leaves_optional.mp hl).resolve_left fun hl => hnone (hp ts mid hts hl)

/-- A repetition takes nothing where its phrase cannot begin. -/
theorem StartsIn.many_eq (hp : StartsIn stops fuel p) (hts : Spelled ts) (hnone : ¬ BeginsIn stops ts)
    (hl : Leaves fuel (Phrase.many p) ts mid) : mid = ts :=
  (leaves_many.mp hl).resolve_right fun ⟨us, hfirst, _⟩ => hnone (hp ts us hts hfirst)

/-! ### Places -/

theorem Forks.mono (hp : Forks stops fuel p) (hstops : stops ⊆ stops') : Forks stops' fuel p :=
  fun ts mid mid' hts h h' =>
    (hp ts mid mid' hts h h').imp_right (Or.imp (·.mono hstops) (·.mono hstops))

/-- A phrase that takes one tree of each list. -/
theorem Forks.of_tail (hp : ∀ ts mid, Leaves fuel p ts mid → mid = ts.tail) : Forks stops fuel p :=
  fun ts mid mid' _ h h' => .inl ((hp ts mid h).trans (hp ts mid' h').symm)

/-- A token can be left in one place only. -/
theorem Forks.one {c : TokenClass} : Forks stops fuel (one c) := .of_tail fun ts mid hl => by
  obtain ⟨t, rfl, -⟩ := leaves_one.mp hl
  rfl

/-- So can a group. -/
theorem Forks.within {b : Bracket} : Forks stops fuel (within b p) := .of_tail fun ts mid hl => by
  obtain ⟨opening, inner, closing, rfl, -⟩ := leaves_within.mp hl
  rfl

/-- What takes nothing is left in one place. -/
theorem Forks.absent : Forks stops fuel (absent p) := fun _ _ _ _ h h' =>
  .inl ((leaves_absent.mp h).1.trans (leaves_absent.mp h').1.symm)

/-- **A sequence**: in front of what goes on with the first phrase, the second one does not fit, or it takes
nothing and may be left there as well. -/
theorem Forks.andThen (hp : Forks early fuel p) (hq : Forks stops fuel q)
    (hearly : ∀ h ∈ early, q.refuses h = true ∨ q.passes h = true ∧ h ∈ stops) :
    Forks stops fuel (p ++ q) := by
  intro ts mid mid' hts hl hl'
  obtain ⟨us, hfirst, hsecond⟩ := leaves_andThen.mp hl
  obtain ⟨us', hfirst', hsecond'⟩ := leaves_andThen.mp hl'
  have hstop {us mid : List Tree} (hb : BeginsIn early us) (hsecond : Leaves fuel q us mid) : BeginsIn stops mid := by
    obtain ⟨h, hh, hb⟩ := hb
    rcases hearly h hh with hrefuses | ⟨hpasses, hstop⟩
    · exact absurd hsecond (not_leaves hb hrefuses)
    · exact ⟨h, hstop, eq_of_leaves hb hpasses hsecond ▸ hb⟩
  rcases hp ts us us' hts hfirst hfirst' with rfl | hb | hb
  · exact hq us mid mid' (spelled_of_leaves hts hfirst) hsecond hsecond'
  · exact .inr (.inl (hstop hb hsecond))
  · exact .inr (.inr (hstop hb hsecond'))

/-- A sequence whose first phrase has one end. -/
theorem Forks.next (hp : Forks [] fuel p) (hq : Forks stops fuel q) : Forks stops fuel (p ++ q) :=
  hp.andThen hq (by simp)

/-- An optional phrase goes on as the phrase begins. -/
theorem Forks.optional (hp : Forks stops fuel p) (hstart : StartsIn stops fuel p) :
    Forks stops fuel (Phrase.optional p) := by
  intro ts mid mid' hts hl hl'
  rcases leaves_optional.mp hl with hl | rfl <;> rcases leaves_optional.mp hl' with hl' | rfl
  · exact hp ts mid mid' hts hl hl'
  · exact .inr (.inr (hstart _ _ hts hl))
  · exact .inr (.inl (hstart _ _ hts hl'))
  · exact .inl rfl

/-- **A repetition.** -/
theorem Forks.many (hp : Forks early fuel p) (hstart : StartsIn stops fuel p)
    (hearly : ∀ h ∈ early, p.refuses h = true ∧ h ∈ stops) : Forks stops fuel (Phrase.many p) := by
  intro ts mid mid' hts hl hl'
  have hstop {us mid : List Tree} (hb : BeginsIn early us) (hmore : Leaves fuel (Phrase.many p) us mid) :
      BeginsIn stops mid := by
    obtain ⟨h, hh, hb⟩ := hb
    obtain ⟨hrefuses, hstop⟩ := hearly h hh
    exact ⟨h, hstop, (leaves_many_of_refuses hb hrefuses).mp hmore ▸ hb⟩
  induction ts, hl using Leaves.many_induction with
  | nil =>
      rcases leaves_many.mp hl' with rfl | ⟨us', hfirst', -, -⟩
      · exact .inl rfl
      · exact .inr (.inl (hstart _ _ hts hfirst'))
  | @cons ts us hfirst _ hmore ih =>
      rcases leaves_many.mp hl' with rfl | ⟨us', hfirst', -, hmore'⟩
      · exact .inr (.inr (hstart _ _ hts hfirst))
      rcases hp ts us us' hts hfirst hfirst' with rfl | hb | hb
      · exact ih (spelled_of_leaves hts hfirst) hmore'
      · exact .inr (.inl (hstop hb hmore))
      · exact .inr (.inr (hstop hb hmore'))

/-- A repetition of a phrase is one of every phrase that can take as much. -/
theorem Leaves.many_mono (hpq : ∀ ts mid, Leaves fuel p ts mid → Leaves fuel q ts mid)
    (hl : Leaves fuel (Phrase.many p) ts mid) : Leaves fuel (Phrase.many q) ts mid := by
  induction ts, hl using Leaves.many_induction with
  | nil => exact leaves_many_refl _
  | cons hfirst hne _ ih => exact leaves_many.mpr (.inr ⟨_, hpq _ _ hfirst, hne, ih⟩)

/-- Of two places to which one phrase is repeated, one comes behind the other. -/
theorem Forks.comparable (hp : Forks [] fuel p) (hts : Spelled ts) (hl : Leaves fuel (Phrase.many p) ts mid)
    (hl' : Leaves fuel (Phrase.many p) ts mid') :
    Leaves fuel (Phrase.many p) mid mid' ∨ Leaves fuel (Phrase.many p) mid' mid := by
  induction ts, hl using Leaves.many_induction with
  | nil => exact .inl hl'
  | @cons ts us hfirst hne hmore ih =>
      rcases leaves_many.mp hl' with rfl | ⟨us', hfirst', -, hmore'⟩
      · exact .inr (leaves_many.mpr (.inr ⟨us, hfirst, hne, hmore⟩))
      obtain rfl : us = us' := (hp ts us us' hts hfirst hfirst').resolve_right (by simp [BeginsIn])
      exact ih (spelled_of_leaves hts hfirst) hmore'

/-- A repetition has one end among places of some kind, if no such place leads to another one. -/
theorem Forks.eq_of_many (good : List Tree → Prop) (hp : Forks [] fuel p) (hts : Spelled ts)
    (hl : Leaves fuel (Phrase.many p) ts mid) (hl' : Leaves fuel (Phrase.many p) ts mid')
    (hmid : good mid) (hmid' : good mid')
    (hgood : ∀ us vs left, Spelled us → good us → Leaves fuel p us vs → Leaves fuel (Phrase.many p) vs left →
      ¬ good left) : mid = mid' := by
  have hfinal {us left : List Tree} (hus : Spelled us) (hgoodus : good us) (hgoodleft : good left)
      (hl : Leaves fuel (Phrase.many p) us left) : left = us :=
    (leaves_many.mp hl).resolve_right fun ⟨vs, hfirst, _, hmore⟩ => hgood us vs left hus hgoodus hfirst hmore hgoodleft
  rcases hp.comparable hts hl hl' with hmore | hmore
  · exact (hfinal (spelled_of_leaves hts hl) hmid hmid' hmore).symm
  · exact hfinal (spelled_of_leaves hts hl') hmid' hmid hmore

/-- **A choice** between phrases of which only one fits, or that are left in places where they go on. -/
theorem Forks.orElse (hp : Forks stops fuel p) (hq : Forks stops fuel q)
    (hcross : ∀ ts mid mid', Spelled ts → Leaves fuel p ts mid → Leaves fuel q ts mid' →
      BeginsIn stops mid ∨ BeginsIn stops mid') : Forks stops fuel (p <|> q) := by
  intro ts mid mid' hts hl hl'
  rcases leaves_orElse.mp hl with hl | hl <;> rcases leaves_orElse.mp hl' with hl' | hl'
  · exact hp ts mid mid' hts hl hl'
  · exact .inr (hcross ts mid mid' hts hl hl')
  · exact .inr (hcross ts mid' mid hts hl' hl).symm
  · exact hq ts mid mid' hts hl hl'

/-- A rule goes on as its phrase does. -/
theorem Forks.rule {r : Rule} (hp : ∀ fuel, Forks stops fuel r.phrase) : Forks stops fuel (rule r) := by
  intro ts mid mid' hts hl hl'
  obtain ⟨less, rfl, hl⟩ := exists_of_leaves_rule hl
  exact hp less ts mid mid' hts hl (leaves_rule.mp hl')

end InteropStubs.Phrase
