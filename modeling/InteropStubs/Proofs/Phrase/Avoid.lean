import InteropStubs.Proofs.Phrase.Start

/-!
# Trees that phrases do not take

The phrases of types and of what stands in front of a body take neither braces nor semicolons, whatever
stands in their brackets. `Phrase.avoids` computes from a head that a phrase takes no tree with that head;
for the rules in the phrase it looks at a list of rules that avoid the head themselves.

* `Leaves.without`: what a phrase takes of a list has not the head that the phrase avoids.
-/

namespace InteropStubs.Phrase

/-- Whether a phrase takes no tree with a head, where `rules` take none. -/
def avoids (rules : List Rule) (h : Head) : Phrase → Bool
  | empty | absent _ => true
  | one c => !h.admits c
  | touching text => !h.admits (.text text)
  | any => false
  | within b _ | opens b _ => h != .group b
  | andThen p q | orElse p q => p.avoids rules h && q.avoids rules h
  | many p => p.avoids rules h
  | rule r => rules.contains r

/-- A list of rules that take no tree with a head, if they refer to no others. -/
def AvoidedBy (rules : List Rule) (h : Head) : Prop :=
  ∀ r ∈ rules, r.phrase.avoids rules h = true

variable {rules : List Rule} {h : Head} {fuel : Nat} {p : Phrase} {ts rest : List Tree}

/-- **What holds of each repetition** holds of all of them. -/
theorem many_of_trans {R : List Tree → List Tree → Prop} (hrefl : ∀ ts, R ts ts)
    (htrans : ∀ {ts mid rest}, R ts mid → R mid rest → R ts rest) (hp : ∀ ts rest, Leaves fuel p ts rest → R ts rest) :
    ∀ ts rest, Leaves fuel (Phrase.many p) ts rest → R ts rest := by
  intro ts rest hl
  induction ts, hl using Leaves.many_induction with
  | nil => exact hrefl rest
  | cons hfirst _ _ ih => exact htrans (hp _ _ hfirst) ih

/-- The trees in front of others have a property. -/
def Front (P : Tree → Prop) (ts rest : List Tree) : Prop :=
  ∃ front, ts = front ++ rest ∧ ∀ t ∈ front, P t

namespace Front

variable {P : Tree → Prop}

/-- Nothing is taken in front of the same list. -/
theorem refl (ts : List Tree) : Front P ts ts :=
  ⟨[], rfl, nofun⟩

/-- What is taken in two parts is so if both parts are. -/
theorem trans {mid : List Tree} (hfirst : Front P ts mid) (hsecond : Front P mid rest) : Front P ts rest := by
  obtain ⟨front, rfl, hfront⟩ := hfirst
  obtain ⟨back, rfl, hback⟩ := hsecond
  exact ⟨front ++ back, (List.append_assoc ..).symm, List.forall_mem_append.mpr ⟨hfront, hback⟩⟩

/-- One tree is taken. -/
theorem cons {t : Tree} (ht : P t) : Front P (t :: rest) rest :=
  ⟨[t], rfl, fun _ hu => List.mem_singleton.mp hu ▸ ht⟩

/-- A repetition takes such trees if its phrase does. -/
theorem many (hp : ∀ ts rest, Leaves fuel p ts rest → Front P ts rest) :
    ∀ ts rest, Leaves fuel (Phrase.many p) ts rest → Front P ts rest :=
  many_of_trans .refl .trans hp

end Front

/-- The trees in front of others have not the head. -/
abbrev Without (h : Head) (ts rest : List Tree) : Prop :=
  Front (fun t => ¬ h.of t) ts rest

/-- A phrase takes no tree with a head that it avoids, if the rules in it do not. -/
theorem without_of_leaves {call : List Rule}
    (hcall : ∀ r ∈ call, ∀ ts rest, Leaves fuel (rule r) ts rest → Without h ts rest) (p : Phrase)
    (hp : p.avoids call h = true) : ∀ ts rest, Leaves fuel p ts rest → Without h ts rest := by
  induction p with
  | empty =>
      intro ts rest hl
      exact leaves_empty.mp hl ▸ .refl _
  | one c =>
      intro ts rest hl
      obtain ⟨t, rfl, ht⟩ := leaves_one.mp hl
      exact .cons fun hof => by simp [avoids, Head.admits_of_holds hof ht] at hp
  | touching text =>
      intro ts rest hl
      obtain ⟨t, rfl, ht, -⟩ := leaves_touching.mp hl
      exact .cons fun hof => by
        simp [avoids, Head.admits_of_holds (c := .text text) hof ht] at hp
  | any => exact absurd hp Bool.false_ne_true
  | within b p | opens b p =>
      intro ts rest hl
      have hgroup : ∃ opening inner closing, ts = .group b opening inner (.present closing) :: rest := by
        first
        | obtain ⟨opening, inner, closing, hts, -⟩ := leaves_within.mp hl
          exact ⟨opening, inner, closing, hts⟩
        | obtain ⟨opening, inner, closing, -, hts, -⟩ := leaves_opens.mp hl
          exact ⟨opening, inner, closing, hts⟩
      obtain ⟨opening, inner, closing, rfl⟩ := hgroup
      refine .cons fun hof => ?_
      cases h <;> first | exact hof | exact bne_iff_ne.mp hp (congrArg _ hof.symm)
  | andThen p q ihp ihq =>
      intro ts rest hl
      obtain ⟨hp, hq⟩ := Bool.and_eq_true_iff.mp hp
      obtain ⟨mid, hfirst, hsecond⟩ := leaves_andThen.mp hl
      exact (ihp hp ts mid hfirst).trans (ihq hq mid rest hsecond)
  | orElse p q ihp ihq =>
      intro ts rest hl
      obtain ⟨hp, hq⟩ := Bool.and_eq_true_iff.mp hp
      exact (leaves_orElse.mp hl).elim (ihp hp ts rest) (ihq hq ts rest)
  | many p ih => exact Front.many (ih hp)
  | absent p =>
      intro ts rest hl
      exact (leaves_absent.mp hl).1 ▸ .refl _
  | rule r => exact hcall r (List.contains_iff_mem.mp hp)

/-- No rule of a list takes a tree with a head that all of them avoid. -/
theorem rule_without_of_leaves (hrules : AvoidedBy rules h) :
    ∀ r ∈ rules, ∀ ts rest, Leaves fuel (rule r) ts rest → Without h ts rest := by
  induction fuel with
  | zero =>
      rintro r - ts rest ⟨n, hn, -⟩
      exact absurd hn List.not_mem_nil
  | succ fuel ih =>
      intro r hr ts rest hl
      exact without_of_leaves ih r.phrase (hrules r hr) ts rest (leaves_rule.mp hl)

/-- **What a phrase takes has not the head** that the phrase avoids. -/
theorem Leaves.without (hl : Leaves fuel p ts rest) (hrules : AvoidedBy rules h)
    (hp : p.avoids rules h = true) : Without h ts rest :=
  without_of_leaves (rule_without_of_leaves hrules) p hp ts rest hl

/-- The same for the trees themselves. -/
theorem not_of_mem_take {n : Nat} (hn : n ∈ p.sizes ts) (hrules : AvoidedBy rules h)
    (hp : p.avoids rules h = true) : ∀ t ∈ ts.take n, ¬ h.of t := by
  have hl : Leaves (Tree.ruleDepth ts) p ts (ts.drop n) := ⟨n, hn, rfl⟩
  obtain ⟨front, hts, hfront⟩ := hl.without hrules hp
  have htake : ts.take n = front :=
    List.append_cancel_right ((List.take_append_drop n ts).trans hts)
  exact htake ▸ hfront

/-- The rules of types and attributes. -/
def typeRules : List Rule := [.type, .valueType, .typeArguments, .attributes]

/-- The rules of types take neither braces nor semicolons. -/
theorem typeRules_avoidedBy {h : Head} (hh : h ∈ [.group .curly, .mark ";"]) : AvoidedBy typeRules h := by
  have hall : ∀ h ∈ [.group .curly, .mark ";"], ∀ r ∈ typeRules, r.phrase.avoids typeRules h = true := by
    decide
  exact hall h hh

end InteropStubs.Phrase
