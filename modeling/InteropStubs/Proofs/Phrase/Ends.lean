import InteropStubs.Proofs.Phrase.Start

/-!
# Where phrases end

A phrase that is repeated or left out may end in several places, but where something certain follows,
only one of them counts. `Phrase.Ends` says that a phrase may end at `rest` and elsewhere only in front
of some heads, `stops`. Sequence, choice and repetition have one rule each; a sequence asks that the
second phrase does not go on behind an early end of the first, and this is decided by heads
(`Ends.andThen`).
-/

namespace InteropStubs.Phrase

/-- A phrase can be left at `rest`, and elsewhere only in front of `stops`. -/
structure Ends (stops : List Head) (fuel : Nat) (p : Phrase) (ts rest : List Tree) : Prop where
  leaves : Leaves fuel p ts rest
  only : ∀ mid, Leaves fuel p ts mid → mid = rest ∨ ∃ h ∈ stops, h.Begins mid

variable {stops early : List Head} {fuel : Nat} {h : Head} {p q : Phrase} {ts mid rest : List Tree}

/-- Where there is no stop, there is one end. -/
theorem Ends.leaves_iff (hp : Ends [] fuel p ts rest) : Leaves fuel p ts mid ↔ mid = rest :=
  ⟨fun hl => (hp.only mid hl).resolve_right (by simp), fun heq => heq ▸ hp.leaves⟩

/-- Where there is no stop, all numbers of trees that are taken are one. -/
theorem Ends.length_eq {front : List Tree} (hp : Ends [] fuel p (front ++ rest) rest) :
    ∀ n ∈ p.takes (Rule.takes fuel) (front ++ rest), n = front.length := by
  intro n hn
  have hle := takes_le (rule_takes_le fuel) p _ n hn
  have hlength := congrArg List.length (hp.leaves_iff.mp ⟨n, hn, rfl⟩)
  rw [List.length_drop, List.length_append] at hlength
  rw [List.length_append] at hle
  omega

/-- A phrase that ends where the trees end fits them as a whole. -/
theorem Ends.fits (hp : Ends stops (Tree.ruleDepth ts) p ts []) : p.fits ts = true :=
  List.contains_iff_mem.mpr (leaves_nil_iff.mp hp.leaves)

/-- A phrase ends as another one does that is left in the same places. -/
theorem Ends.of_iff (hp : ∀ mid, Leaves fuel p ts mid ↔ Leaves fuel q ts mid)
    (hq : Ends stops fuel q ts rest) : Ends stops fuel p ts rest :=
  ⟨(hp rest).mpr hq.leaves, fun mid hl => hq.only mid ((hp mid).mp hl)⟩

/-- A token ends behind itself. -/
theorem Ends.one {c : TokenClass} {t : Token} (ht : c.holds t = true) :
    Ends stops fuel (one c) (.token t :: rest) rest where
  leaves := leaves_one.mpr ⟨t, rfl, ht⟩
  only mid hl := by
    obtain ⟨_, heq, -⟩ := leaves_one.mp hl
    exact .inl (List.cons.inj heq).2.symm

/-- A group ends behind itself, if what is in it is taken. -/
theorem Ends.within {b : Bracket} {opening closing : Token} {inner : List Tree}
    (hp : Leaves fuel p inner []) :
    Ends stops fuel (within b p) (.group b opening inner (.present closing) :: rest) rest where
  leaves := leaves_within.mpr ⟨opening, inner, closing, rfl, hp⟩
  only mid hl := by
    obtain ⟨_, _, _, heq, -⟩ := leaves_within.mp hl
    exact .inl (List.cons.inj heq).2.symm

/-- So does a group whose beginning is taken. -/
theorem Ends.opens {b : Bracket} {opening closing : Token} {inner left : List Tree}
    (hp : Leaves fuel p inner left) :
    Ends stops fuel (opens b p) (.group b opening inner (.present closing) :: rest) rest where
  leaves := leaves_opens.mpr ⟨opening, inner, closing, left, rfl, hp⟩
  only mid hl := by
    obtain ⟨_, _, _, _, heq, -⟩ := leaves_opens.mp hl
    exact .inl (List.cons.inj heq).2.symm

/-- A phrase that passes over what follows. -/
theorem Ends.pass (hb : h.Begins ts) (hp : p.passes h = true) (hl : Leaves fuel p ts ts) :
    Ends stops fuel p ts ts :=
  ⟨hl, fun _ hmid => .inl (eq_of_leaves hb hp hmid)⟩

/-- What cannot begin is absent and ends at once. -/
theorem Ends.absent (hb : h.Begins ts) (hp : p.refuses h = true) : Ends stops fuel (absent p) ts ts :=
  ⟨(leaves_absent_of_refuses hb hp).mpr rfl, fun _ hmid => .inl (leaves_absent.mp hmid).1⟩

/-- What does not begin may be left out. -/
theorem Ends.optional (hb : h.Begins ts) (hp : p.refuses h = true) :
    Ends stops fuel (Phrase.optional p) ts ts :=
  ⟨leaves_optional.mpr (.inr rfl), fun _ hmid => .inl ((leaves_optional_of_refuses hb hp).mp hmid)⟩

/-- What cannot begin is repeated no time and ends at once. -/
theorem Ends.many (hb : h.Begins ts) (hp : p.refuses h = true) : Ends stops fuel (many p) ts ts :=
  ⟨leaves_many_refl ts, fun _ hmid => .inl ((leaves_many_of_refuses hb hp).mp hmid)⟩

/-- **A sequence.** In front of an early stop of the first phrase, the second one does not fit, or it
takes nothing and the whole stops. -/
theorem Ends.andThen (hp : Ends early fuel p ts mid) (hq : Ends stops fuel q mid rest)
    (hearly : ∀ h ∈ early, q.refuses h = true ∨ q.passes h = true ∧ h ∈ stops) :
    Ends stops fuel (p ++ q) ts rest where
  leaves := leaves_andThen.mpr ⟨mid, hp.leaves, hq.leaves⟩
  only left hl := by
    obtain ⟨mid', hmid', hleft⟩ := leaves_andThen.mp hl
    rcases hp.only mid' hmid' with rfl | ⟨h, hh, hb⟩
    · exact hq.only left hleft
    · rcases hearly h hh with hrefuses | ⟨hpasses, hstop⟩
      · exact absurd hleft (not_leaves hb hrefuses)
      · exact .inr ⟨h, hstop, eq_of_leaves hb hpasses hleft ▸ hb⟩

/-- A sequence whose first phrase has one end. -/
theorem Ends.next (hp : Ends [] fuel p ts mid) (hq : Ends stops fuel q mid rest) :
    Ends stops fuel (p ++ q) ts rest :=
  hp.andThen hq (by simp)

/-- A choice where the other alternative is ruled out. -/
theorem Ends.left (hb : h.Begins ts) (hq : q.refuses h = true) (hp : Ends stops fuel p ts rest) :
    Ends stops fuel (p <|> q) ts rest :=
  .of_iff (fun _ => leaves_orElse_left hb hq) hp

/-- An alternative ends as its second phrase does, where the first one cannot begin. -/
theorem Ends.right (hb : h.Begins ts) (hp : p.refuses h = true) (hq : Ends stops fuel q ts rest) :
    Ends stops fuel (p <|> q) ts rest :=
  .of_iff (fun _ => leaves_orElse_right hb hp) hq

/-- A choice where the other alternative takes nothing. -/
theorem Ends.left_or_stop (hb : h.Begins ts) (hh : h ∈ stops) (hq : q.passes h = true)
    (hp : Ends stops fuel p ts rest) : Ends stops fuel (p <|> q) ts rest where
  leaves := leaves_orElse.mpr (.inl hp.leaves)
  only mid hl := by
    rcases leaves_orElse.mp hl with hl | hl
    · exact hp.only mid hl
    · exact .inr ⟨h, hh, eq_of_leaves hb hq hl ▸ hb⟩

/-- **A repetition** that goes on may as well stop. -/
theorem Ends.many_more (hb : h.Begins ts) (hh : h ∈ stops) (hneeds : p.needs h = true)
    (hp : Ends early fuel p ts mid) (hearly : ∀ h ∈ early, p.refuses h = true ∧ h ∈ stops)
    (hmore : Ends stops fuel (Phrase.many p) mid rest) : Ends stops fuel (Phrase.many p) ts rest where
  leaves := leaves_many.mpr (.inr ⟨mid, hp.leaves, ne_of_leaves hb hneeds hp.leaves, hmore.leaves⟩)
  only left hl := by
    rcases leaves_many.mp hl with rfl | ⟨mid', hmid', -, hleft⟩
    · exact .inr ⟨h, hh, hb⟩
    · rcases hp.only mid' hmid' with rfl | ⟨h, hh, hb⟩
      · exact hmore.only left hleft
      · obtain ⟨hrefuses, hstop⟩ := hearly h hh
        exact .inr ⟨h, hstop, (leaves_many_of_refuses hb hrefuses).mp hleft ▸ hb⟩

/-- It does not matter how phrases in a row are grouped. -/
theorem Ends.assoc {r : Phrase} (hp : Ends stops fuel (p ++ (q ++ r)) ts rest) :
    Ends stops fuel (p ++ q ++ r) ts rest :=
  .of_iff (fun _ => leaves_assoc) hp

/-- A rule ends as its phrase does. -/
theorem Ends.rule {r : Rule} (hp : Ends stops fuel r.phrase ts rest) :
    Ends stops (fuel + 1) (rule r) ts rest :=
  ⟨leaves_rule.mpr hp.leaves, fun mid hl => hp.only mid (leaves_rule.mp hl)⟩

/-! ### Alternatives -/

/-- The alternatives of a choice. -/
def alternatives : Phrase → List Phrase
  | orElse p q => p.alternatives ++ q.alternatives
  | p => [p]

/-- A phrase is left as one of its alternatives is. -/
theorem leaves_alternatives : ∀ {p : Phrase},
    Leaves fuel p ts rest ↔ ∃ q ∈ p.alternatives, Leaves fuel q ts rest
  | orElse p q => by
      have hchoice : Leaves fuel (orElse p q) ts rest ↔ Leaves fuel p ts rest ∨ Leaves fuel q ts rest :=
        leaves_orElse
      simp only [hchoice, alternatives, List.mem_append, or_and_right, exists_or,
        ← leaves_alternatives]
  | .empty | .one _ | .any | .within .. | .opens .. | .andThen .. | .many _ | .absent _ | .touching _
  | .rule _ => by simp [alternatives]

/-- The alternatives that are not ruled out by what comes first. -/
def openAt (h : Head) (p : Phrase) : List Phrase :=
  p.alternatives.filter fun q => !q.refuses h

/-- Of the alternatives only those matter that can begin. -/
theorem exists_openAt (hb : h.Begins ts) (hl : Leaves fuel p ts rest) :
    ∃ q ∈ p.openAt h, Leaves fuel q ts rest := by
  obtain ⟨q, hq, hleaves⟩ := leaves_alternatives.mp hl
  refine ⟨q, List.mem_filter.mpr ⟨hq, ?_⟩, hleaves⟩
  rw [Bool.not_eq_true', Bool.eq_false_iff]
  exact fun hrefuses => not_leaves hb hrefuses hleaves

/-- **A choice** of which one alternative fits. -/
theorem Ends.choice (before after : List Phrase) (hb : h.Begins ts)
    (hopen : p.openAt h = before ++ q :: after) (hq : Ends stops fuel q ts rest)
    (hothers : ∀ r ∈ before ++ after, ∀ mid, ¬ Leaves fuel r ts mid) : Ends stops fuel p ts rest where
  leaves := by
    have hmem : q ∈ p.openAt h := by simp [hopen]
    exact leaves_alternatives.mpr ⟨q, (List.mem_filter.mp hmem).1, hq.leaves⟩
  only mid hl := by
    obtain ⟨r, hr, hleaves⟩ := exists_openAt hb hl
    rw [hopen, List.mem_append, List.mem_cons] at hr
    rcases hr with hr | rfl | hr
    · exact absurd hleaves (hothers r (List.mem_append_left _ hr) mid)
    · exact hq.only mid hleaves
    · exact absurd hleaves (hothers r (List.mem_append_right _ hr) mid)

end InteropStubs.Phrase
