import InteropStubs.Proofs.Tree.Tokens

/-!
# Well-nested trees

A list of trees is *well nested* if its groups stand between brackets that open and close them, if no
other token is a bracket, and if no semicolon stands directly between round or square brackets
(`Tree.wellNested`). Such trees are what nesting makes of their tokens (`Tree.ofTokens_tokensAll`).
-/

namespace InteropStubs.Tree

mutual

/-- Whether a tree is well nested; the flag says whether it may be a semicolon. -/
def wellNestedIn (semicolons : Bool) : Tree → Bool
  | token t =>
    bracketOpenedBy? t == none && bracketClosedBy? t == none && (semicolons || !t.isText ";")
  | group b opening inner (.present closing) =>
    bracketOpenedBy? opening == some b && bracketOpenedBy? closing == none
      && bracketClosedBy? closing == some b && wellNested (b != .round && b != .square) inner
  | group _ _ _ (.absent _) => false

/-- Whether a list of trees is well nested. -/
def wellNested (semicolons : Bool) : List Tree → Bool
  | [] => true
  | t :: ts => wellNestedIn semicolons t && wellNested semicolons ts

end

namespace Pass

/-- A semicolon ends none of the brackets that are open. -/
def Tolerates (s : Pass) : Prop :=
  ∀ o ∈ s.opened.head?, o.endsAtSemicolon = false

/-- A tree that is complete goes to the innermost level. -/
def Completes (s : Pass) (ts : List Tree) : Prop :=
  ∃ reach, (tokensAll ts).foldl push s = ⟨s.opened, ts.reverse ++ s.level, reach⟩

variable {semicolons : Bool} {s : Pass}

theorem completes_token {t : Token} (hopen : bracketOpenedBy? t = none)
    (hclose : bracketClosedBy? t = none) (hsemicolon : t.isText ";" = true → s.Tolerates) :
    s.Completes [.token t] := by
  refine ⟨t.reach, ?_⟩
  simp only [tokensAll, tokens, List.append_nil, List.foldl_cons, List.foldl_nil, push, hopen, hclose,
    add, List.reverse_singleton, List.singleton_append]
  split
  · next h =>
    have hgiveUp : giveUp Opened.endsAtSemicolon s.reach s.opened s.level = (s.opened, s.level) := by
      cases hopened : s.opened with
      | nil => rfl
      | cons o opened =>
          have ho := hsemicolon h o (by simp [hopened])
          simp [giveUp, ho]
    rw [hgiveUp]
  · rfl

theorem Completes.append {ts us : List Tree} (hts : s.Completes ts)
    (hus : ∀ reach, Completes ⟨s.opened, ts.reverse ++ s.level, reach⟩ us) :
    s.Completes (ts ++ us) := by
  obtain ⟨reach, hreach⟩ := hts
  obtain ⟨reach', hreach'⟩ := hus reach
  refine ⟨reach', ?_⟩
  rw [tokensAll_append, List.foldl_append, hreach, hreach', List.reverse_append, List.append_assoc]

theorem completes_group {b : Bracket} {opening closing : Token} {inner : List Tree}
    (hopen : bracketOpenedBy? opening = some b) (hnone : bracketOpenedBy? closing = none)
    (hclose : bracketClosedBy? closing = some b)
    (hinner : Completes ⟨⟨b, opening, s.level⟩ :: s.opened, [], opening.reach⟩ inner) :
    s.Completes [.group b opening inner (.present closing)] := by
  obtain ⟨reach, hreach⟩ := hinner
  refine ⟨closing.reach, ?_⟩
  have hpush : s.push opening = ⟨⟨b, opening, s.level⟩ :: s.opened, [], opening.reach⟩ := by
    simp [push, hopen, enter]
  rw [tokensAll, tokens, tokensAll, List.append_nil, List.foldl_cons, hpush, List.foldl_append,
    hreach, Closing.tokens, List.foldl_cons, List.foldl_nil]
  simp [push, hnone, hclose, leave, giveUp, closeInto]

mutual

theorem completes_of_wellNestedIn (s : Pass) (semicolons : Bool)
    (hs : semicolons = true → s.Tolerates) : ∀ t : Tree, wellNestedIn semicolons t = true →
      s.Completes [t]
  | .token t, h => by
      simp only [wellNestedIn, Bool.and_eq_true, beq_iff_eq, Bool.or_eq_true, Bool.not_eq_true'] at h
      obtain ⟨⟨hopen, hclose⟩, hsemicolon⟩ := h
      exact completes_token hopen hclose fun ht =>
        hs (hsemicolon.resolve_right (by simp [ht]))
  | .group b opening inner (.present closing), h => by
      simp only [wellNestedIn, Bool.and_eq_true, beq_iff_eq] at h
      obtain ⟨⟨⟨hopen, hnone⟩, hclose⟩, hinner⟩ := h
      refine completes_group hopen hnone hclose (completes_of_wellNested _ _ (fun hb => ?_) inner hinner)
      intro o ho
      obtain rfl := Option.some.inj ho
      cases b <;> first | rfl | exact absurd hb (by decide)
  | .group _ _ _ (.absent _), h => absurd h Bool.false_ne_true

theorem completes_of_wellNested (s : Pass) (semicolons : Bool)
    (hs : semicolons = true → s.Tolerates) : ∀ ts : List Tree, wellNested semicolons ts = true →
      s.Completes ts
  | [], _ => ⟨s.reach, rfl⟩
  | t :: ts, h => by
      simp only [wellNested, Bool.and_eq_true] at h
      exact (completes_of_wellNestedIn s semicolons hs t h.1).append fun reach =>
        completes_of_wellNested ⟨s.opened, [t].reverse ++ s.level, reach⟩ semicolons hs ts h.2

end

end Pass

/-- Trees that are complete by themselves are what nesting makes of their tokens. -/
theorem ofTokens_of_completes {ts : List Tree} (h : Pass.Completes {} ts) : ofTokens (tokensAll ts) = ts := by
  obtain ⟨reach, hreach⟩ := h
  rw [ofTokens, hreach]
  simp [Pass.trees, Pass.giveUp]

/-- **Well-nested trees are what nesting makes of their tokens.** -/
theorem ofTokens_tokensAll {ts : List Tree} (h : wellNested true ts = true) :
    ofTokens (tokensAll ts) = ts :=
  ofTokens_of_completes (Pass.completes_of_wellNested {} true (fun _ => nofun) ts h)

end InteropStubs.Tree
