import InteropStubs.Tree.Nesting

/-!
# Trees and their tokens

Nesting loses no token and moves none (`tokensAll_ofTokens`): at any time the tokens of a pass, those
of its open brackets with what stands in front of them and those of its innermost level, are the ones
that were pushed.
-/

namespace InteropStubs.Tree

@[simp] theorem tokensAll_nil : tokensAll [] = [] := rfl

@[simp] theorem tokensAll_cons (t : Tree) (ts : List Tree) :
    tokensAll (t :: ts) = t.tokens ++ tokensAll ts := rfl

@[simp] theorem tokensAll_append (ts us : List Tree) :
    tokensAll (ts ++ us) = tokensAll ts ++ tokensAll us := by
  induction ts with
  | nil => rfl
  | cons t ts ih => simp [ih]

theorem tokensAll_eq_flatMap (ts : List Tree) : tokensAll ts = ts.flatMap tokens := by
  induction ts with
  | nil => rfl
  | cons t ts ih => rw [tokensAll_cons, ih, List.flatMap_cons]

@[simp] theorem tokensAll_map_token (ts : List Token) : tokensAll (ts.map .token) = ts := by
  simp [tokensAll_eq_flatMap, List.flatMap_map, tokens]

/-- The first token of a tree is the first of its tokens. -/
theorem tokens_eq_head_cons (t : Tree) : ∃ rest, t.tokens = t.head :: rest := by
  cases t with
  | token t => exact ⟨[], rfl⟩
  | group b opening inner closing => exact ⟨_, rfl⟩

theorem tokensAll_eq_head_cons (t : Tree) (ts : List Tree) :
    ∃ rest, tokensAll (t :: ts) = t.head :: (rest ++ tokensAll ts) := by
  obtain ⟨rest, hrest⟩ := t.tokens_eq_head_cons
  exact ⟨rest, by rw [tokensAll_cons, hrest, List.cons_append]⟩

/-- The tokens of a group inside a list are tokens of the list behind its first one. -/
theorem tokensAll_sublist_tail {b : Bracket} {opening : Token} {inner ts : List Tree}
    {closing : Closing} (h : .group b opening inner closing ∈ ts) :
    (tokensAll inner).Sublist (tokensAll ts).tail := by
  obtain ⟨before, after, rfl⟩ := List.append_of_mem h
  have hinner : (tokensAll inner).Sublist (tokensAll inner ++ closing.tokens ++ tokensAll after) := by
    rw [List.append_assoc]
    exact List.sublist_append_left _ _
  cases before with
  | nil => simp [tokens]
  | cons t before =>
      obtain ⟨rest, hrest⟩ := t.tokensAll_eq_head_cons (before ++ .group b opening inner closing :: after)
      rw [List.cons_append, hrest]
      simp only [tokensAll_cons, List.tail_cons, tokensAll_append, tokens]
      refine (hinner.cons opening).trans ?_
      rw [← List.append_assoc]
      exact List.sublist_append_right _ _

/-- The tokens of a group inside a list follow one another in the list. -/
theorem tokensAll_isInfix_of_mem {b : Bracket} {opening : Token} {inner ts : List Tree} {closing : Closing}
    (h : .group b opening inner closing ∈ ts) : tokensAll inner <:+: tokensAll ts := by
  obtain ⟨before, after, rfl⟩ := List.append_of_mem h
  exact ⟨tokensAll before ++ [opening], closing.tokens ++ tokensAll after, by simp [tokens]⟩

theorem tokensAll_isInfix {ts us : List Tree} (h : ts <:+: us) :
    tokensAll ts <:+: tokensAll us := by
  obtain ⟨before, after, rfl⟩ := h
  exact ⟨tokensAll before, tokensAll after, by simp⟩

/-! ### Nesting keeps the tokens -/

/-- The tokens of some open brackets, innermost bracket first, with what stands in front of them. -/
def openedTokens : List Opened → List Token
  | [] => []
  | o :: opened => openedTokens opened ++ tokensAll o.before.reverse ++ [o.opening]

/-- All tokens of a pass. -/
def passTokens (opened : List Opened) (level : List Tree) : List Token :=
  openedTokens opened ++ tokensAll level.reverse

namespace Pass

theorem passTokens_closeInto (o : Opened) (opened : List Opened) (level : List Tree)
    (closing : Closing) :
    passTokens opened (closeInto o level closing) =
      passTokens (o :: opened) level ++ closing.tokens := by
  simp [passTokens, closeInto, openedTokens, tokens]

theorem passTokens_giveUp (p : Opened → Bool) (place : Nat) (opened : List Opened)
    (level : List Tree) :
    passTokens (giveUp p place opened level).1 (giveUp p place opened level).2 =
      passTokens opened level := by
  induction opened generalizing level with
  | nil => rfl
  | cons o opened ih =>
      by_cases h : p o
      · simp [giveUp, h, ih, passTokens_closeInto, Closing.tokens]
      · simp [giveUp, h]

theorem passTokens_cons_token (opened : List Opened) (level : List Tree) (t : Token) :
    passTokens opened (.token t :: level) = passTokens opened level ++ [t] := by
  simp [passTokens, tokens]

/-- **A token that is pushed comes behind all others.** -/
theorem passTokens_push (s : Pass) (t : Token) :
    passTokens (s.push t).opened (s.push t).level = passTokens s.opened s.level ++ [t] := by
  unfold push
  split
  · simp [enter, passTokens, openedTokens]
  · next b _ _ =>
    unfold leave
    split
    · have hkeep := passTokens_giveUp (·.bracket != b) s.reach s.opened s.level
      cases hgiven : (giveUp (·.bracket != b) s.reach s.opened s.level).1 with
      | nil => simp_all [passTokens_cons_token]
      | cons o opened => simp_all [passTokens_closeInto, Closing.tokens]
    · exact passTokens_cons_token _ _ t
  · unfold add
    split
    · rw [← passTokens_giveUp Opened.endsAtSemicolon s.reach s.opened s.level]
      exact passTokens_cons_token _ _ t
    · exact passTokens_cons_token _ _ t

theorem passTokens_foldl (s : Pass) (ts : List Token) :
    passTokens (ts.foldl push s).opened (ts.foldl push s).level =
      passTokens s.opened s.level ++ ts := by
  induction ts generalizing s with
  | nil => simp
  | cons t ts ih => simp [ih, passTokens_push]

end Pass

theorem giveUp_all (place : Nat) (opened : List Opened) (level : List Tree) :
    (Pass.giveUp (fun _ => true) place opened level).1 = [] := by
  induction opened generalizing level with
  | nil => rfl
  | cons o opened ih => exact ih _

/-- **Nesting keeps all tokens in their order.** -/
theorem tokensAll_ofTokens (ts : List Token) : tokensAll (ofTokens ts) = ts := by
  have hfold := Pass.passTokens_foldl {} ts
  let s : Pass := ts.foldl Pass.push {}
  have hgiveUp := Pass.passTokens_giveUp (fun _ => true) s.reach s.opened s.level
  rw [passTokens, giveUp_all] at hgiveUp
  exact hgiveUp.trans hfold

end InteropStubs.Tree
