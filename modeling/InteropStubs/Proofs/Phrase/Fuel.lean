import InteropStubs.Proofs.Phrase.Leaves
import InteropStubs.Proofs.Tree.Tokens

/-!
# How deeply rules are entered

The number of rules that may be entered one inside the other is bounded, and `Tree.ruleDepth` is a bound that
no phrase comes up against: a larger one finds the same numbers (`Phrase.takes_eq_sizes`). The reason is that
a rule which is entered before a tree is taken has a smaller height than the one that enters it
(`Rule.height_lt_of_mem_leads`), and that heights are small.

The numbers themselves are in ascending order (`Phrase.sorted_sizes`), so the last one is the largest.
-/

namespace InteropStubs

/-- How many rules may be entered from a rule before a tree is taken. -/
def Rule.height : Rule → Nat
  | valueType | typeArguments | attributes | block | afterValue | opensOther | designation | tupleNames => 0
  | type | body | afterPlace => 1
  | parameters | expression | place | closedPattern | effect | declaration => 2
  | operand | arguments | statement => 3
  | properPattern | casePattern | testedPattern | fileItem => 4
  | pattern => 5
  | subpattern => 6

namespace Phrase

/-- The rules that may take nothing. -/
def optionalRules : List Rule :=
  [.parameters, .arguments, .afterPlace, .afterValue]

/-- Whether a phrase may take nothing. -/
def mayBeEmpty : Phrase → Bool
  | empty | many _ | absent _ => true
  | one _ | any | within .. | opens .. | touching _ => false
  | andThen p q => p.mayBeEmpty && q.mayBeEmpty
  | orElse p q => p.mayBeEmpty || q.mayBeEmpty
  | rule r => optionalRules.contains r

/-- The rules that a phrase may enter before a tree is taken. -/
def leads : Phrase → List Rule
  | empty | one _ | any | within .. | opens .. | touching _ => []
  | andThen p q => if p.mayBeEmpty then p.leads ++ q.leads else p.leads
  | orElse p q => p.leads ++ q.leads
  | many p | absent p => p.leads
  | rule r => [r]

/-- A rule that may take nothing is among the optional ones. -/
theorem mayBeEmpty_phrase (r : Rule) : r.phrase.mayBeEmpty = true → r ∈ optionalRules := by
  cases r <;> decide

end Phrase

/-- A rule that is entered first is lower than the one it is entered from. -/
theorem Rule.height_lt_of_mem_leads (r : Rule) : ∀ s ∈ r.phrase.leads, s.height < r.height := by
  cases r <;> decide

/-- No rule is higher than a known bound. -/
theorem Rule.height_lt (r : Rule) : r.height < 16 := by
  cases r <;> decide

namespace Tree

variable {ts us : List Tree}

/-- Some trees have fewer tokens than others. -/
def Shorter (us ts : List Tree) : Prop :=
  (tokensAll us).length < (tokensAll ts).length

/-- What is dropped leaves all of a list or fewer tokens. -/
theorem drop_eq_or_shorter (n : Nat) (ts : List Tree) : ts.drop n = ts ∨ Shorter (ts.drop n) ts := by
  cases n with
  | zero => exact .inl rfl
  | succ n =>
      cases ts with
      | nil => exact .inl rfl
      | cons t ts =>
          obtain ⟨rest, hrest⟩ := t.tokensAll_eq_head_cons ts
          have hsuffix := (tokensAll_isInfix (List.drop_suffix n ts).isInfix).length_le
          refine .inr ?_
          rw [Shorter, List.drop_succ_cons, hrest, List.length_cons, List.length_append]
          omega

/-- To drop a tree leaves fewer tokens. -/
theorem shorter_drop {n : Nat} (hpos : n ≠ 0) (hle : n ≤ ts.length) : Shorter (ts.drop n) ts := by
  refine (drop_eq_or_shorter n ts).resolve_left fun heq => ?_
  have := congrArg List.length heq
  rw [List.length_drop] at this
  omega

/-- What is in a group has fewer tokens than the group. -/
theorem shorter_inner {b : Bracket} {opening : Token} {inner rest : List Tree} {closing : Closing} :
    Shorter inner (.group b opening inner closing :: rest) := by
  simp only [Shorter, tokensAll_cons, tokens, List.length_append, List.length_cons]
  omega

theorem Shorter.trans {vs : List Tree} (h : Shorter us ts) (h' : Shorter vs us) : Shorter vs ts :=
  Nat.lt_trans h' h

end Tree

namespace Phrase

open InteropStubs.Tree (Shorter)

variable {call call' : Rule → List Tree → List Nat} {ts : List Tree}

/-! ### The same numbers -/

/-- Steps in turn depend on the steps at the sizes alone. -/
theorem inTurn_congr {step step' : List Tree → List Nat} {ns : List Nat}
    (h : ∀ n ∈ ns, step (ts.drop n) = step' (ts.drop n)) : inTurn ns step ts = inTurn ns step' ts := by
  induction ns with
  | nil => rfl
  | cons n ns ih =>
      obtain ⟨hn, hns⟩ := List.forall_mem_cons.mp h
      have htail := ih hns
      unfold inTurn at htail ⊢
      rw [List.foldr_cons, List.foldr_cons, hn, htail]

/-- A repetition depends on its steps alone. -/
theorem repeated_congr {step step' : List Tree → List Nat} (bound : Nat) :
    ∀ (ahead : List Nat) (ts : List Tree), (∀ n, step (ts.drop n) = step' (ts.drop n)) →
      repeated step bound ahead ts = repeated step' bound ahead ts := by
  induction bound with
  | zero => exact fun _ _ _ => rfl
  | succ bound ih =>
      intro ahead ts h
      have hhere : step ts = step' ts := h 0
      rw [repeated, repeated, hhere]
      split
      · rfl
      · next n ns _ =>
        have hrest := ih (ns.map (· - n)) (ts.drop n) fun m => by
          rw [List.drop_drop]
          exact h _
        rw [hrest]

/-- A phrase that takes nothing is one that may, if this is so for the rules. -/
theorem mayBeEmpty_of_zero_mem (hcall : ∀ r ts, 0 ∈ call r ts → r ∈ optionalRules) (p : Phrase) :
    ∀ ts, 0 ∈ p.takes call ts → p.mayBeEmpty = true := by
  induction p with
  | empty | many | absent => exact fun _ _ => rfl
  | one c | any | touching text | within b p | opens b p =>
      intro ts h
      unfold takes at h
      repeat' split at h
      all_goals simp at h
  | andThen p q ihp ihq =>
      intro ts h
      obtain ⟨m, hm, k, hk, hzero⟩ := mem_inTurn.mp h
      obtain ⟨rfl, rfl⟩ : m = 0 ∧ k = 0 := by omega
      rw [mayBeEmpty, ihp ts hm, ihq _ hk, Bool.and_true]
  | orElse p q ihp ihq =>
      intro ts h
      rw [mayBeEmpty, Bool.or_eq_true]
      exact (mem_union.mp h).imp (ihp ts) (ihq ts)
  | rule r => exact fun ts h => List.contains_iff_mem.mpr (hcall r ts h)

/-- A rule that takes nothing is one that may. -/
theorem mem_optionalRules_of_zero_mem (fuel : Nat) : ∀ r ts, 0 ∈ Rule.takes fuel r ts → r ∈ optionalRules := by
  induction fuel with
  | zero => exact fun _ _ h => absurd h List.not_mem_nil
  | succ fuel ih => exact fun r ts h => mayBeEmpty_phrase r (mayBeEmpty_of_zero_mem ih r.phrase ts h)

/-- A phrase takes the same if the rules do that it enters first, and all rules further on. -/
theorem takes_congr (hcall : ∀ r ts, 0 ∈ call r ts → r ∈ optionalRules)
    (hle : ∀ r ts, ∀ n ∈ call r ts, n ≤ ts.length) (p : Phrase) :
    ∀ ts, (∀ r ∈ p.leads, call r ts = call' r ts) → (∀ r us, Shorter us ts → call r us = call' r us) →
      p.takes call ts = p.takes call' ts := by
  induction p with
  | empty | one | any | touching => exact fun _ _ _ => rfl
  | within b p ih | opens b p ih =>
      intro ts _ hshort
      have hinner (inner : List Tree) (h : Shorter inner ts) : p.takes call inner = p.takes call' inner :=
        ih inner (fun r _ => hshort r inner h) fun r us hus => hshort r us (h.trans hus)
      unfold takes
      split
      · rw [hinner _ Tree.shorter_inner]
      · rfl
  | andThen p q ihp ihq =>
      intro ts hleads hshort
      have hleft : ∀ r ∈ p.leads, call r ts = call' r ts := fun r hr => hleads r <| by
        rw [leads]
        split
        · exact List.mem_append_left _ hr
        · exact hr
      rw [takes, takes, ← ihp ts hleft hshort]
      refine inTurn_congr fun n hn => ?_
      by_cases hzero : n = 0
      · subst hzero
        have hempty := mayBeEmpty_of_zero_mem hcall p ts hn
        refine ihq ts (fun r hr => hleads r ?_) hshort
        rw [leads, if_pos hempty]
        exact List.mem_append_right _ hr
      · have hdrop := Tree.shorter_drop hzero (takes_le hle p ts n hn)
        exact ihq _ (fun r _ => hshort r _ hdrop) fun r us hus => hshort r us (hdrop.trans hus)
  | orElse p q ihp ihq =>
      intro ts hleads hshort
      rw [takes, takes, ihp ts (fun r hr => hleads r (List.mem_append_left _ hr)) hshort,
        ihq ts (fun r hr => hleads r (List.mem_append_right _ hr)) hshort]
  | many p ih =>
      intro ts hleads hshort
      refine repeated_congr _ _ _ fun n => ?_
      rcases Tree.drop_eq_or_shorter n ts with heq | hdrop
      · rw [heq]
        exact ih ts hleads hshort
      · exact ih _ (fun r _ => hshort r _ hdrop) fun r us hus => hshort r us (hdrop.trans hus)
  | absent p ih =>
      intro ts hleads hshort
      rw [takes, takes, ih ts hleads hshort]
  | rule r => exact fun ts hleads _ => hleads r (List.mem_singleton_self r)

/-- **Enough depth**: all bounds that a rule does not come up against find the same. -/
theorem rule_takes_eq (fuel : Nat) : ∀ (fuel' : Nat) (r : Rule) (ts : List Tree),
    16 * (Tree.tokensAll ts).length + r.height < fuel → 16 * (Tree.tokensAll ts).length + r.height < fuel' →
      Rule.takes fuel r ts = Rule.takes fuel' r ts := by
  induction fuel with
  | zero => exact fun _ _ _ h => absurd h (Nat.not_lt_zero _)
  | succ fuel ih =>
      intro fuel' r ts h h'
      obtain ⟨fuel', rfl⟩ := Nat.exists_eq_add_one.mpr (Nat.zero_lt_of_lt h')
      refine takes_congr (mem_optionalRules_of_zero_mem fuel) (rule_takes_le fuel) r.phrase ts
        (fun s hs => ?_) fun s us hus => ?_
      · have hheight := r.height_lt_of_mem_leads s hs
        exact ih fuel' s ts (by omega) (by omega)
      · have hheight := s.height_lt
        have hlength : (Tree.tokensAll us).length < (Tree.tokensAll ts).length := hus
        exact ih fuel' s us (by omega) (by omega)

/-- **No phrase comes up against `Tree.ruleDepth`.** -/
theorem takes_eq_sizes {fuel : Nat} (p : Phrase) (h : Tree.ruleDepth ts ≤ fuel) :
    p.takes (Rule.takes fuel) ts = p.sizes ts := by
  have hrule (r : Rule) (us : List Tree) (hus : (Tree.tokensAll us).length ≤ (Tree.tokensAll ts).length) :
      Rule.takes fuel r us = Rule.takes (Tree.ruleDepth ts) r us := by
    have hheight := r.height_lt
    rw [Tree.ruleDepth] at h ⊢
    exact rule_takes_eq _ _ r us (by omega) (by omega)
  exact takes_congr (mem_optionalRules_of_zero_mem fuel) (rule_takes_le fuel) p ts
    (fun r _ => hrule r ts (Nat.le_refl _)) fun r us hus => hrule r us (Nat.le_of_lt hus)

/-- Rules may always be entered some times. -/
theorem exists_ruleDepth {n : Nat} (hn : n ≤ 16) (ts : List Tree) : ∃ k, Tree.ruleDepth ts = k + n :=
  ⟨Tree.ruleDepth ts - n, by unfold Tree.ruleDepth; omega⟩

/-- More trees need at least as much fuel. -/
theorem ruleDepth_le_append (ts us : List Tree) : Tree.ruleDepth ts ≤ Tree.ruleDepth (ts ++ us) := by
  rw [Tree.ruleDepth, Tree.ruleDepth, Tree.tokensAll_append, List.length_append]
  omega

/-- **All fuel that is enough is alike.** -/
theorem leaves_iff_of_le {fuel fuel' : Nat} {p : Phrase} {rest : List Tree} (h : Tree.ruleDepth ts ≤ fuel)
    (h' : Tree.ruleDepth ts ≤ fuel') : Leaves fuel p ts rest ↔ Leaves fuel' p ts rest := by
  rw [Leaves, Leaves, takes_eq_sizes p h, takes_eq_sizes p h']

/-! ### The order of the numbers -/

theorem sorted_map_add {n : Nat} {ns : List Nat} (h : ns.Pairwise (· < ·)) : (ns.map (n + ·)).Pairwise (· < ·) :=
  List.pairwise_map.mpr (h.imp fun hlt => Nat.add_lt_add_left hlt n)

/-- Steps in turn come in order. -/
theorem sorted_inTurn {step : List Tree → List Nat} (ns : List Nat) :
    (inTurn ns step ts).Pairwise (· < ·) := by
  induction ns with
  | nil => exact .nil
  | cons n ns ih => exact sorted_union _ ih

/-- A repetition comes in order. -/
theorem sorted_repeated {step : List Tree → List Nat} (bound : Nat) : ∀ (ahead : List Nat) (ts : List Tree),
    ahead.Pairwise (· < ·) → (∀ a ∈ ahead, 0 < a) → (repeated step bound ahead ts).Pairwise (· < ·) := by
  induction bound with
  | zero => exact fun _ _ _ _ => List.pairwise_singleton _ _
  | succ bound ih =>
      intro ahead ts hahead hpos
      rw [repeated]
      split
      · exact List.pairwise_singleton _ _
      · next n ns hunion =>
        have hsorted := sorted_union ((step ts).filter (0 < ·)) hahead
        have hall : ∀ a ∈ n :: ns, 0 < a := fun a ha => by
          rw [← hunion] at ha
          rcases mem_union.mp ha with ha | ha
          · simpa using (List.mem_filter.mp ha).2
          · exact hpos a ha
        rw [hunion, List.pairwise_cons] at hsorted
        have hnext : (ns.map (· - n)).Pairwise (· < ·) := by
          refine List.pairwise_map.mpr (hsorted.2.imp_of_mem fun ha hb hab => ?_)
          have := hsorted.1 _ ha
          omega
        refine List.pairwise_cons.mpr ⟨fun a ha => ?_, sorted_map_add (ih _ _ hnext fun a ha => ?_)⟩
        · obtain ⟨b, -, rfl⟩ := List.mem_map.mp ha
          exact Nat.lt_add_right b (hall n List.mem_cons_self)
        · obtain ⟨b, hb, rfl⟩ := List.mem_map.mp ha
          exact Nat.sub_pos_of_lt (hsorted.1 b hb)

/-- The sizes of a phrase come in order, if those of the rules do. -/
theorem sorted_takes (hcall : ∀ r ts, (call r ts).Pairwise (· < ·)) (p : Phrase) :
    ∀ ts, (p.takes call ts).Pairwise (· < ·) := by
  induction p with
  | empty => exact fun _ => List.pairwise_singleton _ _
  | one c | any | touching text | within b p | opens b p | absent p =>
      intro ts
      unfold takes
      repeat' split
      all_goals simp
  | andThen p q => exact fun ts => sorted_inTurn _
  | orElse p q ihp ihq => exact fun ts => sorted_union _ (ihq ts)
  | many p => exact fun ts => sorted_repeated _ _ _ .nil fun _ hn => absurd hn List.not_mem_nil
  | rule r => exact hcall r

/-- The sizes of a rule come in order. -/
theorem sorted_rule_takes (fuel : Nat) : ∀ r ts, (Rule.takes fuel r ts).Pairwise (· < ·) := by
  induction fuel with
  | zero => exact fun _ _ => .nil
  | succ fuel ih => exact fun r => sorted_takes ih r.phrase

/-- **The numbers are in ascending order.** -/
theorem sorted_sizes (p : Phrase) (ts : List Tree) : (p.sizes ts).Pairwise (· < ·) :=
  sorted_takes (sorted_rule_takes _) p ts

/-- The last number is the largest. -/
theorem getLast?_sizes {p : Phrase} {n : Nat} (hn : n ∈ p.sizes ts) (hall : ∀ m ∈ p.sizes ts, m ≤ n) :
    (p.sizes ts).getLast? = some n := by
  obtain ⟨before, after, hsplit⟩ := List.append_of_mem hn
  have hsorted := p.sorted_sizes ts
  rw [hsplit] at hsorted hall ⊢
  have hafter : after = [] := List.eq_nil_iff_forall_not_mem.mpr fun m hm => by
    have hlt := (List.pairwise_cons.mp (List.pairwise_append.mp hsorted).2.1).1 m hm
    have hle := hall m (List.mem_append_right _ (List.mem_cons_of_mem _ hm))
    omega
  rw [hafter, List.getLast?_concat]

end Phrase

end InteropStubs
