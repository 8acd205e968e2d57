import InteropStubs.Proofs.Phrase.Forks

/-!
# Angle brackets

Angle brackets do not make groups, as they are signs of comparison elsewhere. In types and type parameters they come in
pairs all the same (`Phrase.Levels`), so that what follows the bracket that opens a list is found by counting
(`Tree.behindAngle`), whatever phrase reads the list.
-/

namespace InteropStubs

namespace Tree

/-- What is behind the angle bracket that closes the innermost list, where `more` lists are open around it. -/
def behindAngle : (more : Nat) → List Tree → List Tree
  | _, [] => []
  | more, t :: ts =>
    if t.isText "<" then behindAngle (more + 1) ts
    else if t.isText ">" then if more = 0 then ts else behindAngle (more - 1) ts
    else behindAngle more ts

/-- Trees whose angle brackets come in pairs. -/
def IsLevel (front : List Tree) : Prop :=
  ∀ more rest, behindAngle more (front ++ rest) = behindAngle more rest

namespace IsLevel

variable {front back : List Tree} {t open' close : Tree}

theorem nil : IsLevel [] := fun _ _ => rfl

/-- Level trees behind level trees are level. -/
theorem append (hfront : IsLevel front) (hback : IsLevel back) : IsLevel (front ++ back) := fun more rest => by
  rw [List.append_assoc, hfront, hback]

theorem singleton (hopen : t.isText "<" = false) (hclose : t.isText ">" = false) : IsLevel [t] := fun more rest => by
  rw [List.singleton_append, behindAngle, hopen, hclose, if_neg Bool.false_ne_true, if_neg Bool.false_ne_true]

/-- An angle bracket closes the innermost list. -/
theorem behindAngle_close (hclose : close.isText ">" = true) (more : Nat) (rest : List Tree) :
    behindAngle (more + 1) (close :: rest) = behindAngle more rest ∧ behindAngle 0 (close :: rest) = rest := by
  have hopen : close.isText "<" = false := by
    cases close with
    | group => rfl
    | token t =>
        simp only [Tree.isText, Token.isText, Bool.and_eq_true, beq_iff_eq] at hclose
        simp [Tree.isText, Token.isText, hclose.2]
  simp [behindAngle, hopen, hclose]

/-- A list in angle brackets ends where they close. -/
theorem behindAngle_eq (hfront : IsLevel front) (hclose : close.isText ">" = true) (rest : List Tree) :
    behindAngle 0 (front ++ close :: rest) = rest := by
  rw [hfront, (behindAngle_close hclose 0 rest).2]

/-- A pair of angle brackets around level trees is level. -/
theorem angles (hfront : IsLevel front) (hopen : open'.isText "<" = true) (hclose : close.isText ">" = true) :
    IsLevel (open' :: front ++ [close]) := fun more rest => by
  rw [List.cons_append, List.cons_append, behindAngle, if_pos hopen, List.append_assoc, hfront,
    List.singleton_append, (behindAngle_close hclose more rest).1]

end IsLevel

end Tree

namespace Phrase

open Rule
open InteropStubs.Tree (Spelled IsLevel behindAngle)

variable {fuel : Nat} {p q : Phrase} {ts rest : List Tree}

/-- A phrase takes angle brackets in pairs. -/
def Levels (fuel : Nat) (p : Phrase) : Prop :=
  ∀ ts rest, Spelled ts → Leaves fuel p ts rest → ∃ front, ts = front ++ rest ∧ IsLevel front

namespace Levels

theorem nil_of (hp : ∀ ts rest, Leaves fuel p ts rest → rest = ts) : Levels fuel p := fun _ _ _ hl =>
  ⟨[], (hp _ _ hl).symm, .nil⟩

/-- Phrases one after the other take pairs. -/
theorem andThen (hp : Levels fuel p) (hq : Levels fuel q) : Levels fuel (p ++ q) := by
  intro ts rest hts hl
  obtain ⟨mid, hfirst, hsecond⟩ := leaves_andThen.mp hl
  obtain ⟨front, rfl, hfront⟩ := hp ts mid hts hfirst
  obtain ⟨back, rfl, hback⟩ := hq mid rest (spelled_of_leaves hts hfirst) hsecond
  exact ⟨front ++ back, (List.append_assoc ..).symm, hfront.append hback⟩

/-- An alternative takes pairs. -/
theorem orElse (hp : Levels fuel p) (hq : Levels fuel q) : Levels fuel (p <|> q) := fun ts rest hts hl =>
  (leaves_orElse.mp hl).elim (hp ts rest hts) (hq ts rest hts)

/-- A repetition takes pairs. -/
theorem many (hp : Levels fuel p) : Levels fuel (Phrase.many p) := by
  intro ts rest hts hl
  induction ts, hl using Leaves.many_induction with
  | nil => exact ⟨[], rfl, .nil⟩
  | cons hfirst _ _ ih =>
      obtain ⟨back, rfl, hback⟩ := ih (spelled_of_leaves hts hfirst)
      obtain ⟨front, rfl, hfront⟩ := hp _ _ hts hfirst
      exact ⟨front ++ back, (List.append_assoc ..).symm, hfront.append hback⟩

/-- A list in angle brackets. -/
theorem angles (hp : Levels fuel p) : Levels fuel (the "<" ++ p ++ the ">") := by
  intro ts rest hts hl
  obtain ⟨mid, hl, hclose⟩ := leaves_andThen.mp hl
  obtain ⟨us, hopen, hinner⟩ := leaves_andThen.mp hl
  obtain ⟨t, rfl, ht⟩ := leaves_one.mp hopen
  obtain ⟨u, rfl, hu⟩ := leaves_one.mp hclose
  obtain ⟨front, rfl, hfront⟩ := hp us _ (spelled_of_leaves hts hopen) hinner
  have hopen' : Tree.isText "<" (.token t) = true := ht
  have hclose' : Tree.isText ">" (.token u) = true := hu
  exact ⟨.token t :: front ++ [.token u], by simp, hfront.angles hopen' hclose'⟩

end Levels

/-- Whether a phrase takes no angle brackets but in lists that `rules` read. -/
def isLevel (rules : List Rule) : Phrase → Bool
  | empty | absent _ | within .. | opens .. => true
  | one c => !(Head.mark "<").admits c && !(Head.mark ">").admits c
  | touching text => text != "<" && text != ">"
  | any => false
  | andThen p q | orElse p q => p.isLevel rules && q.isLevel rules
  | many p => p.isLevel rules
  | rule r => rules.contains r

/-- A tree that is no angle bracket is level. -/
theorem isLevel_singleton {t : Tree} (hts : Spelled (t :: rest)) (hopen : ¬ (Head.mark "<").of t)
    (hclose : ¬ (Head.mark ">").of t) : IsLevel [t] := by
  have hnone {m : String} (hm : m ∈ Words.marks) (h : ¬ (Head.mark m).of t) : t.isText m = false := by
    cases t with
    | group => rfl
    | token t => exact Bool.eq_false_iff.mpr fun htext => h (hts.of_isText List.mem_cons_self hm htext)
  exact .singleton (hnone (by decide) hopen) (hnone (by decide) hclose)

/-- A phrase takes pairs if it is level by what is computed of it and the rules take pairs. -/
theorem levels_of_isLevel {rules : List Rule} (hrules : ∀ r ∈ rules, Levels fuel (rule r)) (p : Phrase)
    (hp : p.isLevel rules = true) : Levels fuel p := by
  induction p with
  | empty => exact .nil_of fun _ _ => leaves_empty.mp
  | absent p => exact .nil_of fun _ _ hl => (leaves_absent.mp hl).1
  | one c =>
      intro ts rest hts hl
      obtain ⟨t, rfl, ht⟩ := leaves_one.mp hl
      obtain ⟨hopen, hclose⟩ : (Head.mark "<").admits c = false ∧ (Head.mark ">").admits c = false := by
        simpa [isLevel] using hp
      refine ⟨[.token t], rfl, isLevel_singleton hts (fun h => ?_) fun h => ?_⟩
      · exact absurd (Head.admits_of_holds h ht) (by simp [hopen])
      · exact absurd (Head.admits_of_holds h ht) (by simp [hclose])
  | touching text =>
      intro ts rest hts hl
      obtain ⟨t, rfl, ht, -⟩ := leaves_touching.mp hl
      obtain ⟨hopen, hclose⟩ : text ≠ "<" ∧ text ≠ ">" := by simpa [isLevel] using hp
      have htext : t.text = text := by
        simp only [Token.isText, Bool.and_eq_true, beq_iff_eq] at ht
        exact ht.2
      refine ⟨[.token t], rfl, isLevel_singleton hts (fun h => ?_) fun h => ?_⟩
      · exact hopen (htext.symm.trans h.2)
      · exact hclose (htext.symm.trans h.2)
  | any => exact absurd hp Bool.false_ne_true
  | within b p =>
      intro ts rest hts hl
      obtain ⟨opening, inner, closing, rfl, -⟩ := leaves_within.mp hl
      exact ⟨[_], rfl, isLevel_singleton hts id id⟩
  | opens b p =>
      intro ts rest hts hl
      obtain ⟨opening, inner, closing, left, rfl, -⟩ := leaves_opens.mp hl
      exact ⟨[_], rfl, isLevel_singleton hts id id⟩
  | andThen p q ihp ihq =>
      obtain ⟨hp, hq⟩ := Bool.and_eq_true_iff.mp hp
      exact (ihp hp).andThen (ihq hq)
  | orElse p q ihp ihq =>
      obtain ⟨hp, hq⟩ := Bool.and_eq_true_iff.mp hp
      exact (ihp hp).orElse (ihq hq)
  | many p ih => exact (ih hp).many
  | rule r => exact hrules r (List.contains_iff_mem.mp hp)

/-- What a phrase in angle brackets leaves. -/
theorem Levels.eq_behindAngle (hp : Levels fuel p) (hts : Spelled ts)
    (hl : Leaves fuel (the "<" ++ p ++ the ">") ts rest) :
    ∃ t us, ts = .token t :: us ∧ (Head.mark "<").of (.token t) ∧ rest = behindAngle 0 us := by
  obtain ⟨mid, hl, hclose⟩ := leaves_andThen.mp hl
  obtain ⟨us, hopen, hinner⟩ := leaves_andThen.mp hl
  obtain ⟨t, rfl, ht⟩ := leaves_one.mp hopen
  obtain ⟨u, rfl, hu⟩ := leaves_one.mp hclose
  obtain ⟨front, rfl, hfront⟩ := hp us _ (spelled_of_leaves hts hopen) hinner
  have hclose' : Tree.isText ">" (.token u) = true := hu
  exact ⟨t, _, rfl, hts.of_isText List.mem_cons_self (by decide) ht, (hfront.behindAngle_eq hclose' rest).symm⟩

/-! ### Types -/

/-- The rules that read lists in angle brackets. -/
def angleRules : List Rule := [.type, .valueType, .typeArguments]

/-- Attributes take pairs. -/
theorem levels_attributes : Levels fuel (rule .attributes) := by
  intro ts rest hts hl
  obtain ⟨less, rfl, hphrase⟩ := exists_of_leaves_rule hl
  have hnone : ∀ r ∈ ([] : List Rule), Levels less (rule r) := nofun
  exact levels_of_isLevel hnone _ (by decide) ts rest hts hphrase

/-- What stands between the angle brackets of a pointer to a function. -/
def pointedTypes : Phrase :=
  Phrase.many (Phrase.optional (oneOf ["ref", "out", "in"]) ++ rule .valueType ++ the ",") ++ rule .type

/-- What stands in front of them. -/
def pointerHead : Phrase :=
  the "delegate" ++ the "*" ++ Phrase.optional (the "managed" <|> the "unmanaged"
    ++ Phrase.optional (squares (list name)))

/-- A pointer to a function is its head and a list in angle brackets. -/
theorem of_leaves_functionPointer (hl : Leaves fuel functionPointer ts rest) :
    Leaves fuel (pointerHead ++ (the "<" ++ pointedTypes ++ the ">")) ts rest := by
  obtain ⟨ts₁, hl, hclose⟩ := leaves_andThen.mp hl
  obtain ⟨ts₂, hl, hresult⟩ := leaves_andThen.mp hl
  obtain ⟨ts₃, hl, hparameters⟩ := leaves_andThen.mp hl
  obtain ⟨ts₄, hhead, hopen⟩ := leaves_andThen.mp hl
  have htypes : Leaves fuel pointedTypes ts₃ ts₁ := leaves_andThen.mpr ⟨ts₂, hparameters, hresult⟩
  exact leaves_andThen.mpr
    ⟨ts₄, hhead, leaves_andThen.mpr ⟨ts₁, leaves_andThen.mpr ⟨ts₃, hopen, htypes⟩, hclose⟩⟩

theorem levels_pointedTypes (hrules : ∀ r ∈ angleRules, Levels fuel (rule r)) : Levels fuel pointedTypes :=
  levels_of_isLevel hrules _ (by decide)

/-- A pointer to a function takes pairs. -/
theorem levels_functionPointer (hrules : ∀ r ∈ angleRules, Levels fuel (rule r)) : Levels fuel functionPointer :=
  fun ts rest hts hl =>
    ((levels_of_isLevel hrules pointerHead (by decide)).andThen (levels_pointedTypes hrules).angles) ts rest hts
      (of_leaves_functionPointer hl)

/-- **Types take angle brackets in pairs.** -/
theorem levels_angleRules (fuel : Nat) : ∀ r ∈ angleRules, Levels fuel (rule r) := by
  induction fuel with
  | zero =>
      rintro r - ts rest - ⟨n, hn, -⟩
      exact absurd hn List.not_mem_nil
  | succ fuel ih =>
      intro r hr ts rest hts hl
      replace hl := leaves_rule.mp hl
      obtain rfl | rfl | rfl : r = .type ∨ r = .valueType ∨ r = .typeArguments := by simpa [angleRules] using hr
      · exact levels_of_isLevel ih _ (by decide) ts rest hts hl
      · have hnamed : Levels fuel (namedType ++ pointers ++ ranks) := levels_of_isLevel ih _ (by decide)
        have hstars : Levels fuel (Phrase.many (the "*")) := levels_of_isLevel ih _ (by decide)
        have hranks : Levels fuel ranks := levels_of_isLevel ih _ (by decide)
        exact hnamed.orElse (((levels_functionPointer ih).andThen hstars).andThen hranks) ts rest hts hl
      · exact (levels_of_isLevel ih (list (rule .type) <|> Phrase.many (the ",")) (by decide)).angles ts rest hts hl

/-- What stands in angle brackets has one end. -/
theorem Levels.forks (hp : Levels fuel p) : Forks [] fuel (the "<" ++ p ++ the ">") := by
  intro ts mid mid' hts hl hl'
  obtain ⟨t, us, rfl, -, rfl⟩ := hp.eq_behindAngle hts hl
  obtain ⟨t', us', heq, -, rfl⟩ := hp.eq_behindAngle hts hl'
  obtain ⟨-, rfl⟩ := List.cons.inj heq
  exact .inl rfl

/-- What type arguments leave. -/
theorem eq_behindAngle_of_typeArguments (hts : Spelled ts) (hl : Leaves fuel (rule .typeArguments) ts rest) :
    ∃ t us, ts = .token t :: us ∧ (Head.mark "<").of (.token t) ∧ rest = behindAngle 0 us := by
  obtain ⟨less, rfl, hphrase⟩ := exists_of_leaves_rule hl
  have hinner : Levels less (list (rule .type) <|> Phrase.many (the ",")) :=
    levels_of_isLevel (levels_angleRules less) _ (by decide)
  exact hinner.eq_behindAngle hts hphrase

/-- What type parameters leave. -/
theorem eq_behindAngle_of_typeParameters {keywords : List String} (hkeywords : keywords ∈ [[], Words.typeStart])
    (hts : Spelled ts) (hl : Leaves fuel (typeParametersBut keywords) ts rest) :
    ∃ t us, ts = .token t :: us ∧ (Head.mark "<").of (.token t) ∧ rest = behindAngle 0 us := by
  obtain ⟨ts₁, hl, hclose⟩ := leaves_andThen.mp hl
  obtain ⟨ts₂, hl, hmore⟩ := leaves_andThen.mp hl
  obtain ⟨ts₃, hopen, hfirst⟩ := leaves_andThen.mp hl
  have hrules : ∀ r ∈ [Rule.attributes], Levels fuel (rule r) := by simpa using levels_attributes
  have hlist := leaves_andThen.mpr ⟨_, leaves_andThen.mpr ⟨_, hopen, leaves_andThen.mpr ⟨_, hfirst, hmore⟩⟩, hclose⟩
  have hall : ∀ keywords ∈ [[], Words.typeStart],
      (Phrase.many (rule .attributes)
        ++ (oneOf ["in", "out"] ++ name <|> Phrase.nameBut (["in", "out"] ++ keywords))).isLevel [.attributes]
        = true := by
    decide
  have hparameters : Levels fuel (Phrase.many (the ","
      ++ (Phrase.many (rule .attributes) ++ (oneOf ["in", "out"] ++ name <|> Phrase.nameBut (["in", "out"] ++ []))))) :=
    levels_of_isLevel hrules _ (by decide)
  exact ((levels_of_isLevel hrules _ (hall keywords hkeywords)).andThen hparameters).eq_behindAngle hts hlist

end Phrase

end InteropStubs
