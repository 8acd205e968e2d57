import InteropStubs.Proofs.Phrase.Avoid

/-!
# How far phrases look

A phrase that neither takes trees with some head nor looks for any sees nothing of what is behind such a tree.
`Phrase.overlooks` computes this from the head as `Phrase.avoids` does, but goes into what must be absent as
well.

* `Phrase.Leaves.change_behind`: such a tree and what is behind it may be replaced.
-/

namespace InteropStubs.Phrase

/-- Whether a phrase neither takes nor looks for a tree with a head, where `rules` do not. -/
def overlooks (rules : List Rule) (h : Head) : Phrase → Bool
  | empty => true
  | one c => !h.admits c
  | touching text => !h.admits (.text text)
  | any => false
  | within b _ | opens b _ => h != .group b
  | andThen p q | orElse p q => p.overlooks rules h && q.overlooks rules h
  | many p | absent p => p.overlooks rules h
  | rule r => rules.contains r

/-- A list of rules that neither take nor look for a tree with a head, if they refer to no others. -/
def OverlookedBy (rules : List Rule) (h : Head) : Prop :=
  ∀ r ∈ rules, r.phrase.overlooks rules h = true

/-- What a phrase leaves of a list with a tree in it depends on nothing of the tree but its head, and not on what is
behind it. -/
def Local (fuel : Nat) (h : Head) (p : Phrase) : Prop :=
  ∀ e front mid rest, h.of e → Leaves fuel p (front ++ e :: mid) rest →
    ∃ front', rest = front' ++ e :: mid ∧
      ∀ e' mid', h.of e' → Leaves fuel p (front ++ e' :: mid') (front' ++ e' :: mid')

variable {rules : List Rule} {h : Head} {fuel : Nat} {p q : Phrase} {e t : Tree}
  {ts front mid mid' rest : List Tree}

/-- A first tree without the head is in front of the tree with the head. -/
theorem exists_front_of_cons (he : h.of e) (ht : ¬ h.of t) (heq : front ++ e :: mid = t :: rest) :
    ∃ front', front = t :: front' ∧ rest = front' ++ e :: mid := by
  cases front with
  | nil =>
      obtain ⟨rfl, -⟩ := List.cons.inj heq
      exact absurd he ht
  | cons u front =>
      obtain ⟨rfl, hrest⟩ := List.cons.inj heq
      exact ⟨front, rfl, hrest.symm⟩

/-- A phrase that takes one tree, and never one with the head. -/
theorem Local.of_cons
    (hone : ∀ ts rest, Leaves fuel p ts rest →
      ∃ t, ts = t :: rest ∧ ¬ h.of t ∧ ∀ more, Leaves fuel p (t :: more) more) : Local fuel h p := by
  intro e front mid rest he hl
  obtain ⟨t, heq, ht, hmore⟩ := hone _ _ hl
  obtain ⟨front', rfl, hrest⟩ := exists_front_of_cons he ht heq
  exact ⟨front', hrest, fun e' mid' _ => hmore _⟩

/-- Phrases one after the other are local if both are. -/
theorem Local.andThen (hp : Local fuel h p) (hq : Local fuel h q) : Local fuel h (p ++ q) := by
  intro e front mid rest he hl
  obtain ⟨left, hfirst, hsecond⟩ := leaves_andThen.mp hl
  obtain ⟨front₁, rfl, hleft⟩ := hp e front mid left he hfirst
  obtain ⟨front₂, rfl, hright⟩ := hq e front₁ mid rest he hsecond
  exact ⟨front₂, rfl, fun e' mid' he' => leaves_andThen.mpr ⟨_, hleft e' mid' he', hright e' mid' he'⟩⟩

/-- An alternative is local if both phrases are. -/
theorem Local.orElse (hp : Local fuel h p) (hq : Local fuel h q) : Local fuel h (p <|> q) := by
  intro e front mid rest he hl
  rcases leaves_orElse.mp hl with hl | hl
  · obtain ⟨front', rfl, hall⟩ := hp e front mid rest he hl
    exact ⟨front', rfl, fun e' mid' he' => leaves_orElse.mpr (.inl (hall e' mid' he'))⟩
  · obtain ⟨front', rfl, hall⟩ := hq e front mid rest he hl
    exact ⟨front', rfl, fun e' mid' he' => leaves_orElse.mpr (.inr (hall e' mid' he'))⟩

/-- A repetition is local if its phrase is. -/
theorem Local.many (hp : Local fuel h p) : Local fuel h (Phrase.many p) := by
  intro e front mid rest he hl
  generalize hts : front ++ e :: mid = ts at hl
  induction ts, hl using Leaves.many_induction generalizing front with
  | nil => exact ⟨front, hts.symm, fun e' mid' _ => leaves_many_refl _⟩
  | cons hfirst hne _ ih =>
      subst hts
      obtain ⟨front₁, rfl, hleft⟩ := hp e front mid _ he hfirst
      obtain ⟨front₂, hrest, hright⟩ := ih front₁ rfl
      refine ⟨front₂, hrest, fun e' mid' he' => leaves_many.mpr (.inr ⟨_, hleft e' mid' he', fun heq => ?_, hright e' mid' he'⟩)⟩
      exact hne (by rw [List.append_cancel_right heq])

/-- What is absent in front of one rest is absent in front of every other one. -/
theorem Local.absent (hp : Local fuel h p) : Local fuel h (Phrase.absent p) := by
  intro e front mid rest he hl
  obtain ⟨rfl, hnone⟩ := leaves_absent.mp hl
  refine ⟨front, rfl, fun e' mid' he' => leaves_absent.mpr ⟨rfl, fun left hleft => ?_⟩⟩
  obtain ⟨front', -, hall⟩ := hp e' front mid' left he' hleft
  exact hnone _ (hall e mid he)

/-- A phrase that overlooks a head is local, if the rules in it are. -/
theorem local_of_overlooks {call : List Rule} (hcall : ∀ r ∈ call, Local fuel h (rule r))
    (p : Phrase) (hp : p.overlooks call h = true) : Local fuel h p := by
  induction p with
  | empty =>
      intro e front mid rest _ hl
      obtain rfl := leaves_empty.mp hl
      exact ⟨front, rfl, fun e' mid' _ => leaves_empty.mpr rfl⟩
  | one c =>
      refine .of_cons fun ts rest hl => ?_
      obtain ⟨t, rfl, ht⟩ := leaves_one.mp hl
      exact ⟨_, rfl, fun hof => by simp [overlooks, Head.admits_of_holds hof ht] at hp,
        fun more => leaves_one.mpr ⟨t, rfl, ht⟩⟩
  | touching text =>
      refine .of_cons fun ts rest hl => ?_
      obtain ⟨t, rfl, ht, htight⟩ := leaves_touching.mp hl
      exact ⟨_, rfl, fun hof => by simp [overlooks, Head.admits_of_holds (c := .text text) hof ht] at hp,
        fun more => leaves_touching.mpr ⟨t, rfl, ht, htight⟩⟩
  | any => exact absurd hp Bool.false_ne_true
  | within b p =>
      refine .of_cons fun ts rest hl => ?_
      obtain ⟨opening, inner, closing, rfl, hinner⟩ := leaves_within.mp hl
      refine ⟨_, rfl, fun hof => ?_, fun more => leaves_within.mpr ⟨opening, inner, closing, rfl, hinner⟩⟩
      cases h <;> first | exact hof | exact bne_iff_ne.mp hp (congrArg _ hof.symm)
  | opens b p =>
      refine .of_cons fun ts rest hl => ?_
      obtain ⟨opening, inner, closing, left, rfl, hinner⟩ := leaves_opens.mp hl
      refine ⟨_, rfl, fun hof => ?_, fun more => leaves_opens.mpr ⟨opening, inner, closing, left, rfl, hinner⟩⟩
      cases h <;> first | exact hof | exact bne_iff_ne.mp hp (congrArg _ hof.symm)
  | andThen p q ihp ihq =>
      obtain ⟨hp, hq⟩ := Bool.and_eq_true_iff.mp hp
      exact (ihp hp).andThen (ihq hq)
  | orElse p q ihp ihq =>
      obtain ⟨hp, hq⟩ := Bool.and_eq_true_iff.mp hp
      exact (ihp hp).orElse (ihq hq)
  | many p ih => exact (ih hp).many
  | absent p ih => exact (ih hp).absent
  | rule r => exact hcall r (List.contains_iff_mem.mp hp)

/-- The rules of a list are local where all of them overlook a head. -/
theorem rule_local (hrules : OverlookedBy rules h) : ∀ r ∈ rules, Local fuel h (rule r) := by
  induction fuel with
  | zero =>
      rintro r - e front mid rest - ⟨n, hn, -⟩
      exact absurd hn List.not_mem_nil
  | succ fuel ih =>
      intro r hr e front mid rest he hl
      exact local_of_overlooks ih r.phrase (hrules r hr) e front mid rest he hl

/-- **A tree and what is behind it may be replaced** by such a tree with anything behind it, if the phrase overlooks
trees with this head. -/
theorem Leaves.change_behind (hl : Leaves fuel p (front ++ e :: mid) rest) (hrules : OverlookedBy rules h)
    (hp : p.overlooks rules h = true) (he : h.of e) :
    ∃ front', rest = front' ++ e :: mid ∧
      ∀ e' mid', h.of e' → Leaves fuel p (front ++ e' :: mid') (front' ++ e' :: mid') :=
  local_of_overlooks (rule_local hrules) p hp e front mid rest he hl

end InteropStubs.Phrase
