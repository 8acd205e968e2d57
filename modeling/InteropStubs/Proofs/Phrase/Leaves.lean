import InteropStubs.Phrase.Grammar

/-!
# What phrases leave

A phrase says how many trees it takes of a list. `Phrase.Leaves` says the same by what is left, and so
it is a relation between lists: sequence is composition, choice is union and repetition is iteration
(`leaves_andThen`, `leaves_orElse`, `leaves_many`), whatever the numbers are.
-/

namespace InteropStubs.Phrase

/-! ### Numbers -/

@[simp] theorem mem_insert {n m : Nat} {ms : List Nat} : n ∈ insert m ms ↔ n = m ∨ n ∈ ms := by
  induction ms with
  | nil => simp [insert]
  | cons k ms ih =>
      unfold insert
      split
      · exact List.mem_cons
      · split
        · next h => simp [h]
        · simp only [List.mem_cons, ih]
          exact or_left_comm

@[simp] theorem mem_union {n : Nat} {ns ms : List Nat} : n ∈ union ns ms ↔ n ∈ ns ∨ n ∈ ms := by
  induction ns with
  | nil => simp [union]
  | cons k ns ih =>
      have h : union (k :: ns) ms = insert k (union ns ms) := rfl
      rw [h, mem_insert, ih, List.mem_cons, or_assoc]

/-- Steps in turn: the size of a first part and that of a second one behind it. -/
theorem mem_inTurn {n : Nat} {ns : List Nat} {step : List Tree → List Nat} {ts : List Tree} :
    n ∈ inTurn ns step ts ↔ ∃ m ∈ ns, ∃ k ∈ step (ts.drop m), n = m + k := by
  induction ns with
  | nil => simp [inTurn]
  | cons m ns ih =>
      have h : inTurn (m :: ns) step ts =
          union ((step (ts.drop m)).map (m + ·)) (inTurn ns step ts) := rfl
      simp [h, ih, eq_comm]

/-- Sizes are inserted in order. -/
theorem sorted_insert (n : Nat) {ms : List Nat} (h : ms.Pairwise (· < ·)) :
    (insert n ms).Pairwise (· < ·) := by
  induction ms with
  | nil => simp [insert]
  | cons m ms ih =>
      obtain ⟨hm, hms⟩ := List.pairwise_cons.mp h
      unfold insert
      split
      · next hlt =>
        refine List.pairwise_cons.mpr ⟨fun k hk => ?_, h⟩
        rcases List.mem_cons.mp hk with rfl | hk
        · exact hlt
        · exact Nat.lt_trans hlt (hm k hk)
      · split
        · exact h
        · refine List.pairwise_cons.mpr ⟨fun k hk => ?_, ih hms⟩
          rcases mem_insert.mp hk with rfl | hk
          · omega
          · exact hm k hk

/-- Sizes are united in order. -/
theorem sorted_union (ns : List Nat) {ms : List Nat} (h : ms.Pairwise (· < ·)) :
    (union ns ms).Pairwise (· < ·) := by
  induction ns with
  | nil => exact h
  | cons n ns ih => exact sorted_insert n ih

/-! ### Repetition -/

/-- How many trees are taken by some steps one after the other, each of which takes some. -/
inductive Steps (step : List Tree → List Nat) : List Tree → Nat → Prop where
  | refl (ts : List Tree) : Steps step ts 0
  | more {ts : List Tree} {m n : Nat} (hm : m ∈ step ts) (hpos : 0 < m)
      (h : Steps step (ts.drop m) n) : Steps step ts (m + n)

section Repeated

variable {step : List Tree → List Nat} {ts : List Tree} {bound n : Nat} {ahead : List Nat}

/-- A repetition may take nothing. -/
theorem zero_mem_repeated (step : List Tree → List Nat) (bound : Nat) (ahead : List Nat)
    (ts : List Tree) : 0 ∈ repeated step bound ahead ts := by
  cases bound with
  | zero => simp [repeated]
  | succ bound =>
      unfold repeated
      split <;> simp

/-- A number of steps ahead, or a first step from here, and then more steps. -/
def Ahead (step : List Tree → List Nat) (ahead : List Nat) (ts : List Tree) (n : Nat) : Prop :=
  ∃ a k, (a ∈ step ts ∧ 0 < a ∨ a ∈ ahead) ∧ Steps step (ts.drop a) k ∧ n = a + k

/-- The nearest of the steps ahead: everything else is behind it. -/
theorem ahead_cons_iff {m : Nat} {ms : List Nat} (hahead : ahead.Pairwise (· < ·))
    (hunion : union ((step ts).filter (0 < ·)) ahead = m :: ms) :
    Ahead step ahead ts n ↔
      n = m ∨ ∃ k, Ahead step (ms.map (· - m)) (ts.drop m) k ∧ n = m + k := by
  have hsorted := sorted_union ((step ts).filter (0 < ·)) hahead
  rw [hunion, List.pairwise_cons] at hsorted
  have hmem (a : Nat) : (a ∈ step ts ∧ 0 < a ∨ a ∈ ahead) ↔ a = m ∨ a ∈ ms := by
    rw [← List.mem_cons, ← hunion, mem_union, List.mem_filter, decide_eq_true_iff]
  simp only [Ahead, hmem]
  constructor
  · rintro ⟨a, k, rfl | ha, hk, rfl⟩
    · cases hk with
      | refl => exact .inl rfl
      | more hb hpos hk => exact .inr ⟨_, ⟨_, _, .inl ⟨hb, hpos⟩, hk, rfl⟩, rfl⟩
    · have hlt := hsorted.1 a ha
      refine .inr ⟨a - m + k, ⟨a - m, k, .inr (List.mem_map.mpr ⟨a, ha, rfl⟩), ?_, rfl⟩, by omega⟩
      rwa [List.drop_drop, show m + (a - m) = a by omega]
  · rintro (rfl | ⟨_, ⟨a, k, ha, hk, rfl⟩, rfl⟩)
    · exact ⟨n, 0, .inl rfl, .refl _, rfl⟩
    · rcases ha with ⟨ha, hpos⟩ | ha
      · exact ⟨m, a + k, .inl rfl, .more ha hpos hk, rfl⟩
      · obtain ⟨b, hb, rfl⟩ := List.mem_map.mp ha
        have hlt := hsorted.1 b hb
        rw [List.drop_drop, show m + (b - m) = b by omega] at hk
        exact ⟨b, k, .inr hb, hk, by omega⟩

/-- **Repetition finds what some steps take**, if it may go far enough. -/
theorem mem_repeated_iff (hahead : ahead.Pairwise (· < ·)) (hpos : ∀ a ∈ ahead, 0 < a)
    (hn : n ≤ bound) : n ∈ repeated step bound ahead ts ↔ n = 0 ∨ Ahead step ahead ts n := by
  induction bound generalizing n ahead ts with
  | zero =>
      obtain rfl := Nat.le_zero.mp hn
      simp [repeated]
  | succ bound ih =>
      rw [repeated]
      split
      · next hunion =>
        -- no step is ahead, and so nothing is
        have hnone : ¬ Ahead step ahead ts n := by
          rintro ⟨a, k, ha, -⟩
          have : a ∈ union ((step ts).filter (0 < ·)) ahead := by simpa using ha
          rw [hunion] at this
          exact List.not_mem_nil this
        simp [hnone]
      · next m ms hunion =>
        have hsorted := sorted_union ((step ts).filter (0 < ·)) hahead
        rw [hunion, List.pairwise_cons] at hsorted
        have hm : 0 < m := by
          have : m ∈ union ((step ts).filter (0 < ·)) ahead := hunion ▸ List.mem_cons_self
          rcases mem_union.mp this with h | h
          · simpa using (List.mem_filter.mp h).2
          · exact hpos m h
        have hms : (ms.map (· - m)).Pairwise (· < ·) := by
          rw [List.pairwise_map]
          refine hsorted.2.imp_of_mem fun ha hb hab => ?_
          have := hsorted.1 _ ha
          omega
        have hmspos : ∀ a ∈ ms.map (· - m), 0 < a := by
          intro a ha
          obtain ⟨b, hb, rfl⟩ := List.mem_map.mp ha
          have := hsorted.1 b hb
          omega
        rw [ahead_cons_iff hahead hunion, List.mem_cons, List.mem_map]
        refine or_congr_right ?_
        constructor
        · rintro ⟨k, hk, rfl⟩
          rcases (ih hms hmspos (by omega)).mp hk with rfl | hk
          · exact .inl rfl
          · exact .inr ⟨k, hk, rfl⟩
        · rintro (rfl | ⟨k, hk, rfl⟩)
          · exact ⟨0, zero_mem_repeated _ _ _ _, rfl⟩
          · exact ⟨k, (ih hms hmspos (by omega)).mpr (.inr hk), rfl⟩

/-- What is taken with nothing ahead is taken step by step. -/
theorem ahead_nil_iff : n = 0 ∨ Ahead step [] ts n ↔ Steps step ts n := by
  constructor
  · rintro (rfl | ⟨a, k, ⟨ha, hpos⟩ | ha, hk, rfl⟩)
    · exact .refl _
    · exact .more ha hpos hk
    · exact absurd ha List.not_mem_nil
  · intro h
    cases h with
    | refl => exact .inl rfl
    | more hm hpos h => exact .inr ⟨_, _, .inl ⟨hm, hpos⟩, h, rfl⟩

/-- Steps do not go beyond the end of a list. -/
theorem Steps.le (hstep : ∀ ts, ∀ m ∈ step ts, m ≤ ts.length) (h : Steps step ts n) :
    n ≤ ts.length := by
  induction h with
  | refl => exact Nat.zero_le _
  | more hm hpos h ih =>
      have := hstep _ _ hm
      rw [List.length_drop] at ih
      omega

end Repeated

/-- Nor does a repetition. -/
theorem repeated_le {step : List Tree → List Nat} (hstep : ∀ ts, ∀ m ∈ step ts, m ≤ ts.length)
    {bound n : Nat} {ahead : List Nat} {ts : List Tree} (hahead : ∀ a ∈ ahead, a ≤ ts.length)
    (h : n ∈ repeated step bound ahead ts) : n ≤ ts.length := by
  induction bound generalizing n ahead ts with
  | zero =>
      simp only [repeated, List.mem_singleton] at h
      omega
  | succ bound ih =>
      rw [repeated] at h
      split at h
      · simp only [List.mem_singleton] at h
        omega
      · next m ms hunion =>
        have hle : ∀ a ∈ m :: ms, a ≤ ts.length := by
          intro a ha
          rw [← hunion] at ha
          rcases mem_union.mp ha with ha | ha
          · exact hstep ts a (List.mem_filter.mp ha).1
          · exact hahead a ha
        rcases List.mem_cons.mp h with rfl | h
        · exact Nat.zero_le _
        · obtain ⟨k, hk, rfl⟩ := List.mem_map.mp h
          have hm := hle m List.mem_cons_self
          have := ih (fun a ha => by
            obtain ⟨b, hb, rfl⟩ := List.mem_map.mp ha
            have := hle b (List.mem_cons_of_mem _ hb)
            rw [List.length_drop]
            omega) hk
          rw [List.length_drop] at this
          omega

/-- **No phrase takes more** than there is, if no rule does. -/
theorem takes_le {call : Rule → List Tree → List Nat}
    (hcall : ∀ r ts, ∀ n ∈ call r ts, n ≤ ts.length) (p : Phrase) :
    ∀ ts, ∀ n ∈ p.takes call ts, n ≤ ts.length := by
  induction p with
  | empty => simp [takes]
  | one | touching | within | opens =>
      -- one tree or nothing
      intro ts n h
      unfold takes at h
      split at h
      · split at h <;> simp_all
      · exact absurd h List.not_mem_nil
  | any =>
      intro ts n h
      cases ts <;> simp_all [takes]
  | andThen p q ihp ihq =>
      intro ts n h
      rw [takes, mem_inTurn] at h
      obtain ⟨m, hm, k, hk, rfl⟩ := h
      have hm := ihp ts m hm
      have hk := ihq _ k hk
      rw [List.length_drop] at hk
      omega
  | orElse p q ihp ihq =>
      intro ts n h
      rw [takes, mem_union] at h
      exact h.elim (ihp ts n) (ihq ts n)
  | many p ih => exact fun ts n h => repeated_le ih (by simp) h
  | absent p =>
      intro ts n h
      unfold takes at h
      split at h <;> simp_all
  | rule r => exact hcall r

/-- No rule takes more than there is. -/
theorem rule_takes_le (fuel : Nat) : ∀ r ts, ∀ n ∈ Rule.takes fuel r ts, n ≤ ts.length := by
  induction fuel with
  | zero => simp [Rule.takes]
  | succ fuel ih => exact fun r => takes_le ih r.phrase

/-! ### What is left -/

/-- A phrase can be taken from the beginning of a list so that `rest` is left. At most `fuel` rules are
entered one inside the other. -/
def Leaves (fuel : Nat) (p : Phrase) (ts rest : List Tree) : Prop :=
  ∃ n ∈ p.takes (Rule.takes fuel) ts, rest = ts.drop n

variable {fuel : Nat} {p q : Phrase} {ts rest : List Tree}

/-- What is left is an end of what was there. -/
theorem Leaves.suffix (h : Leaves fuel p ts rest) : rest <:+ ts := by
  obtain ⟨n, -, rfl⟩ := h
  exact List.drop_suffix n ts

@[simp] theorem leaves_empty : Leaves fuel empty ts rest ↔ rest = ts := by
  simp [Leaves, takes]

/-- One token is left out, if it is of the class. -/
@[simp] theorem leaves_one {c : TokenClass} :
    Leaves fuel (one c) ts rest ↔ ∃ t, ts = .token t :: rest ∧ c.holds t = true := by
  constructor
  · rintro ⟨n, hn, rfl⟩
    unfold takes at hn
    split at hn
    · next t ts =>
      split at hn
      · next h =>
        obtain rfl := List.mem_singleton.mp hn
        exact ⟨t, rfl, h⟩
      · exact absurd hn List.not_mem_nil
    · exact absurd hn List.not_mem_nil
  · rintro ⟨t, rfl, h⟩
    exact ⟨1, by simp [takes, h], rfl⟩

/-- A token that touches the one in front is left out. -/
@[simp] theorem leaves_touching {text : String} :
    Leaves fuel (touching text) ts rest ↔
      ∃ t, ts = .token t :: rest ∧ t.isText text = true ∧ t.isTight = true := by
  constructor
  · rintro ⟨n, hn, rfl⟩
    unfold takes at hn
    split at hn
    · next t ts =>
      split at hn
      · next h =>
        obtain rfl := List.mem_singleton.mp hn
        exact ⟨t, rfl, Bool.and_eq_true_iff.mp h⟩
      · exact absurd hn List.not_mem_nil
    · exact absurd hn List.not_mem_nil
  · rintro ⟨t, rfl, htext, htight⟩
    exact ⟨1, by simp [takes, htext, htight], rfl⟩

/-- Phrases one after the other are left one after the other. -/
@[simp] theorem leaves_andThen :
    Leaves fuel (p ++ q) ts rest ↔ ∃ mid, Leaves fuel p ts mid ∧ Leaves fuel q mid rest := by
  simp only [Leaves, takes_andThen, mem_inTurn]
  constructor
  · rintro ⟨_, ⟨m, hm, k, hk, rfl⟩, rfl⟩
    exact ⟨_, ⟨m, hm, rfl⟩, k, hk, by rw [List.drop_drop]⟩
  · rintro ⟨_, ⟨m, hm, rfl⟩, k, hk, rfl⟩
    exact ⟨_, ⟨m, hm, k, hk, rfl⟩, by rw [List.drop_drop]⟩

/-- It does not matter how phrases in a row are grouped. -/
theorem leaves_assoc {r : Phrase} :
    Leaves fuel (p ++ q ++ r) ts rest ↔ Leaves fuel (p ++ (q ++ r)) ts rest := by
  simp only [leaves_andThen]
  constructor
  · rintro ⟨us, ⟨vs, hp, hq⟩, hr⟩
    exact ⟨vs, hp, us, hq, hr⟩
  · rintro ⟨vs, hp, us, hq, hr⟩
    exact ⟨us, ⟨vs, hp, hq⟩, hr⟩

/-- An alternative is left as one of its phrases is. -/
@[simp] theorem leaves_orElse :
    Leaves fuel (p <|> q) ts rest ↔ Leaves fuel p ts rest ∨ Leaves fuel q ts rest := by
  simp only [Leaves, takes_orElse, mem_union, or_and_right, exists_or]

/-- An optional phrase may be left at once. -/
@[simp] theorem leaves_optional :
    Leaves fuel (Phrase.optional p) ts rest ↔ Leaves fuel p ts rest ∨ rest = ts := by
  simp [Phrase.optional]

/-- An absent phrase is left at once, where it cannot be taken. -/
@[simp] theorem leaves_absent :
    Leaves fuel (absent p) ts rest ↔ rest = ts ∧ ∀ left, ¬ Leaves fuel p ts left := by
  have hnone : (∀ left, ¬ Leaves fuel p ts left) ↔
      (p.takes (Rule.takes fuel) ts).isEmpty = true := by
    rw [List.isEmpty_iff, List.eq_nil_iff_forall_not_mem]
    exact ⟨fun h n hn => h _ ⟨n, hn, rfl⟩, fun h _ ⟨n, hn, _⟩ => h n hn⟩
  rw [hnone, Leaves, takes_absent]
  split <;> simp_all

/-- A phrase fits a list as a whole if it can leave nothing of it. -/
theorem leaves_nil_iff :
    Leaves fuel p ts [] ↔ ts.length ∈ p.takes (Rule.takes fuel) ts := by
  constructor
  · rintro ⟨n, hn, h⟩
    have hle := takes_le (rule_takes_le fuel) p ts n hn
    have hge := List.drop_eq_nil_iff.mp h.symm
    rwa [Nat.le_antisymm hge hle]
  · exact fun h => ⟨_, h, by simp⟩

/-- A group is left as a whole, and what is in it is taken up to the end. -/
@[simp] theorem leaves_within {b : Bracket} :
    Leaves fuel (within b p) ts rest ↔ ∃ opening inner closing,
      ts = .group b opening inner (.present closing) :: rest ∧ Leaves fuel p inner [] := by
  simp only [leaves_nil_iff]
  constructor
  · rintro ⟨n, hn, rfl⟩
    unfold takes at hn
    split at hn
    · next b' opening inner closing ts =>
      split at hn
      · next h =>
        obtain rfl := List.mem_singleton.mp hn
        obtain ⟨rfl, hinner⟩ : b' = b ∧ inner.length ∈ p.takes (Rule.takes fuel) inner := by
          simpa using h
        exact ⟨opening, inner, closing, rfl, hinner⟩
      · exact absurd hn List.not_mem_nil
    · exact absurd hn List.not_mem_nil
  · rintro ⟨opening, inner, closing, rfl, h⟩
    exact ⟨1, by simp [takes, h], rfl⟩

/-- So is a group whose beginning is taken. -/
@[simp] theorem leaves_opens {b : Bracket} :
    Leaves fuel (opens b p) ts rest ↔ ∃ opening inner closing left,
      ts = .group b opening inner (.present closing) :: rest ∧ Leaves fuel p inner left := by
  constructor
  · rintro ⟨n, hn, rfl⟩
    unfold takes at hn
    split at hn
    · next b' opening inner closing ts =>
      split at hn
      · next h =>
        obtain rfl := List.mem_singleton.mp hn
        obtain ⟨rfl, hinner⟩ : b' = b ∧ p.takes (Rule.takes fuel) inner ≠ [] := by
          simpa using h
        obtain ⟨m, hm⟩ := List.exists_mem_of_ne_nil _ hinner
        exact ⟨opening, inner, closing, inner.drop m, rfl, m, hm, rfl⟩
      · exact absurd hn List.not_mem_nil
    · exact absurd hn List.not_mem_nil
  · rintro ⟨opening, inner, closing, _, rfl, m, hm, -⟩
    have hne : p.takes (Rule.takes fuel) inner ≠ [] := List.ne_nil_of_mem hm
    exact ⟨1, by simp [takes, hne], rfl⟩

/-- A rule is left as its phrase is. -/
theorem leaves_rule {r : Rule} :
    Leaves (fuel + 1) (rule r) ts rest ↔ Leaves fuel r.phrase ts rest :=
  Iff.rfl

/-- **Repetition** takes nothing, or a phrase that takes something and then more. -/
theorem leaves_many :
    Leaves fuel (many p) ts rest ↔
      rest = ts ∨ ∃ mid, Leaves fuel p ts mid ∧ mid ≠ ts ∧ Leaves fuel (many p) mid rest := by
  have hle := takes_le (rule_takes_le fuel) p
  have hmany (ts : List Tree) (n : Nat) : n ∈ (many p).takes (Rule.takes fuel) ts ↔
      Steps (p.takes (Rule.takes fuel)) ts n := by
    constructor
    · intro h
      have hn : n ≤ ts.length := repeated_le hle (by simp) h
      exact ahead_nil_iff.mp ((mem_repeated_iff .nil (by simp) hn).mp h)
    · intro h
      exact (mem_repeated_iff .nil (by simp) (h.le hle)).mpr (ahead_nil_iff.mpr h)
  constructor
  · rintro ⟨n, hn, rfl⟩
    cases (hmany ts n).mp hn with
    | refl => exact .inl rfl
    | @more _ m k hm hpos h =>
        refine .inr ⟨ts.drop m, ⟨m, hm, rfl⟩, fun heq => ?_, k, (hmany _ k).mpr h, ?_⟩
        · have := congrArg List.length heq
          have := hle ts m hm
          rw [List.length_drop] at *
          omega
        · rw [List.drop_drop]
  · rintro (rfl | ⟨_, ⟨m, hm, rfl⟩, hne, k, hk, rfl⟩)
    · exact ⟨0, (hmany _ 0).mpr (.refl _), rfl⟩
    · have hpos : 0 < m := Nat.pos_of_ne_zero fun h => hne (by rw [h, List.drop_zero])
      exact ⟨m + k, (hmany ts _).mpr (.more hm hpos ((hmany _ k).mp hk)), by rw [List.drop_drop]⟩

theorem leaves_many_refl (ts : List Tree) : Leaves fuel (many p) ts ts :=
  leaves_many.mpr (.inl rfl)

/-- **Induction on repetitions**, from the last one to the first. There are only so many, since each takes
something. -/
@[elab_as_elim]
theorem Leaves.many_induction {motive : (ts : List Tree) → Leaves fuel (many p) ts rest → Prop}
    (nil : motive rest (leaves_many_refl rest))
    (cons : ∀ {ts mid : List Tree} (hfirst : Leaves fuel p ts mid) (hne : mid ≠ ts)
      (hmore : Leaves fuel (many p) mid rest), motive mid hmore →
        motive ts (leaves_many.mpr (.inr ⟨mid, hfirst, hne, hmore⟩)))
    (ts : List Tree) (hl : Leaves fuel (many p) ts rest) : motive ts hl := by
  induction hn : ts.length using Nat.strongRecOn generalizing ts with
  | ind n ih =>
    rcases leaves_many.mp hl with rfl | ⟨mid, hfirst, hne, hmore⟩
    · exact nil
    · have hlt : mid.length < n :=
        hn ▸ Nat.lt_of_le_of_ne hfirst.suffix.length_le fun heq => hne (hfirst.suffix.eq_of_length heq)
      exact cons hfirst hne hmore (ih _ hlt mid hmore rfl)

end InteropStubs.Phrase
