import InteropStubs.Proofs.Tree.Relabel
import InteropStubs.Proofs.Tree.WellNested

/-!
# Passes on a ground

A pass may begin where brackets are open already and trees stand in front. Those are its *ground*, and
`Pass.Above` says that a pass has come as far on a ground as another one without. A token can tell the
difference only if it closes a bracket of the ground, and such a token is a *stray* of the pass without the
ground: it closes nothing there.

* `Pass.completes_ofTokens`: tokens that nest without strays and without open brackets nest to the same trees
  on a ground.
* `ofTokens_append`: so the trees of two texts, one behind the other, are those of each.
* `ofTokens_braces`: and the trees of a text in braces are those of the text.
-/

namespace InteropStubs.Tree

variable {floor opened opened' : List Opened} {base level level' ts : List Tree} {b : Bracket} {t : Token}

/-! ### Strays -/

mutual

/-- Whether a token at or inside a tree closes a bracket that is not open there. -/
def strayIn (b : Bracket) : Tree → Bool
  | token t => bracketClosedBy? t == some b
  | group b' _ inner _ => b' != b && stray b inner

/-- Whether a token of some trees closes a bracket that is not open there. -/
def stray (b : Bracket) : List Tree → Bool
  | [] => false
  | t :: ts => strayIn b t || stray b ts

end

theorem stray_eq_any (b : Bracket) (ts : List Tree) : stray b ts = ts.any (strayIn b) := by
  induction ts with
  | nil => rfl
  | cons t ts ih => rw [stray, ih, List.any_cons]

/-- A group has the strays inside it, if it is between other brackets. -/
theorem stray_closeInto (b : Bracket) (o : Opened) (level : List Tree) (closing : Closing) :
    stray b (Pass.closeInto o level closing) = (o.bracket != b && stray b level || stray b o.before) := by
  rw [Pass.closeInto, stray, strayIn, stray_eq_any b level.reverse, List.any_reverse, ← stray_eq_any]

namespace Pass

/-- Whether a token was pushed that closes a bracket which was not open then: whether there is a stray once
everything is closed. -/
def exposes (b : Bracket) : List Opened → List Tree → Bool
  | [], level => stray b level
  | o :: opened, level => exposes b opened (closeInto o level (.absent 0))

theorem exposes_mono (h : stray b level = true → stray b level' = true)
    (hlevel : exposes b opened level = true) : exposes b opened level' = true := by
  induction opened generalizing level level' with
  | nil => exact h hlevel
  | cons o opened ih =>
      refine ih (fun hstray => ?_) hlevel
      rw [stray_closeInto, Bool.or_eq_true, Bool.and_eq_true] at hstray ⊢
      exact hstray.imp_left fun hinner => ⟨hinner.1, h hinner.2⟩

/-- How a bracket is closed makes no difference. -/
theorem exposes_closeInto (b : Bracket) (o : Opened) (opened : List Opened) (level : List Tree) (closing : Closing) :
    exposes b opened (closeInto o level closing) = exposes b (o :: opened) level := by
  have hstray : stray b (closeInto o level closing) = true ↔ stray b (closeInto o level (.absent 0)) = true := by
    rw [stray_closeInto, stray_closeInto]
  exact Bool.eq_iff_iff.mpr ⟨exposes_mono hstray.mp, exposes_mono hstray.mpr⟩

theorem exposes_giveUp (b : Bracket) (p : Opened → Bool) (place : Nat) (opened : List Opened) (level : List Tree) :
    exposes b (giveUp p place opened level).1 (giveUp p place opened level).2 = exposes b opened level := by
  induction opened generalizing level with
  | nil => rfl
  | cons o opened ih =>
      rw [giveUp]
      split
      · rw [ih, exposes_closeInto]
      · rfl

/-- A stray is exposed where its bracket is not open. -/
theorem exposes_of_stray (h : opened.any (·.bracket == b) = false) (hlevel : stray b level = true) :
    exposes b opened level = true := by
  induction opened generalizing level with
  | nil => exact hlevel
  | cons o opened ih =>
      rw [List.any_cons, Bool.or_eq_false_iff] at h
      refine ih h.2 ?_
      rw [stray_closeInto, hlevel, bne, h.1]
      rfl

/-- What is exposed remains so. -/
theorem exposes_push {s : Pass} (h : exposes b s.opened s.level = true) :
    exposes b (s.push t).opened (s.push t).level = true := by
  have hcons {opened : List Opened} {level : List Tree} (u : Tree) (h : exposes b opened level = true) :
      exposes b opened (u :: level) = true :=
    exposes_mono (fun hstray => by rw [stray, hstray, Bool.or_true]) h
  unfold push
  split
  · next b' _ =>
    have hbelow : stray b s.level = true → stray b (closeInto ⟨b', t, s.level⟩ [] (.absent 0)) = true :=
      fun hstray => by rw [stray_closeInto, hstray, Bool.or_true]
    change exposes b s.opened (closeInto ⟨b', t, s.level⟩ [] (.absent 0)) = true
    exact exposes_mono hbelow h
  · next b' _ _ =>
    unfold leave
    split
    · have hgiveUp := exposes_giveUp b (·.bracket != b') s.reach s.opened s.level
      rw [h] at hgiveUp
      generalize giveUp (·.bracket != b') s.reach s.opened s.level = left at hgiveUp ⊢
      obtain ⟨_ | ⟨o, opened⟩, level⟩ := left
      · exact hcons _ hgiveUp
      · exact (exposes_closeInto b o opened level (.present t)).trans hgiveUp
    · exact hcons _ h
  · unfold add
    split
    · exact hcons _ ((exposes_giveUp b _ _ _ _).trans h)
    · exact hcons _ h

theorem exposes_foldl {s : Pass} (us : List Token) (h : exposes b s.opened s.level = true) :
    exposes b (us.foldl push s).opened (us.foldl push s).level = true := by
  induction us generalizing s with
  | nil => exact h
  | cons u us ih => exact ih (exposes_push h)

end Pass

/-! ### Grounds -/

/-- Open brackets and trees, and the same on a ground: other brackets are open below, and trees stand in
front. -/
inductive Above (floor : List Opened) (base : List Tree) :
    List Opened → List Tree → List Opened → List Tree → Prop
  | ground (level : List Tree) : Above floor base [] level floor (level ++ base)
  | more {b : Bracket} {opening : Token} {opened opened' : List Opened} {before before' : List Tree}
      (h : Above floor base opened before opened' before') (level : List Tree) :
      Above floor base (⟨b, opening, before⟩ :: opened) level (⟨b, opening, before'⟩ :: opened') level

/-- A ground on which nothing ends with a semicolon, and where no header of a loop is expected. -/
structure IsGround (floor : List Opened) (base : List Tree) : Prop where
  tolerates : ∀ o ∈ floor.head?, o.endsAtSemicolon = false
  noLoop : base.head?.any (isText "for") = false

namespace Above

theorem cons (h : Above floor base opened level opened' level') (t : Tree) :
    Above floor base opened (t :: level) opened' (t :: level') := by
  cases h with
  | ground level => exact .ground (t :: level)
  | more h level => exact .more h (t :: level)

/-- Whether a semicolon ends a bracket does not depend on the ground. -/
theorem endsAtSemicolon (hground : IsGround floor base) (h : Above floor base opened level opened' level')
    (b : Bracket) (opening : Token) :
    Opened.endsAtSemicolon ⟨b, opening, level'⟩ = Opened.endsAtSemicolon ⟨b, opening, level⟩ := by
  have hhead : level'.head?.any (isText "for") = level.head?.any (isText "for") := by
    cases h with
    | ground level =>
        cases level with
        | nil => exact hground.noLoop
        | cons => rfl
    | more => rfl
  simp only [Opened.endsAtSemicolon, Opened.isLoopHeader_eq, hhead]

/-- Brackets are given up alike, if this ends above the ground or at once on it. -/
theorem giveUp {p : Opened → Bool}
    (hp : ∀ {opened level opened' level'}, Above floor base opened level opened' level' →
      ∀ b opening, p ⟨b, opening, level'⟩ = p ⟨b, opening, level⟩)
    (h : Above floor base opened level opened' level') {place place' : Nat}
    (hplace : opened ≠ [] → place' = place)
    (hstop : (∀ o ∈ floor.head?, p o = false) ∨ ∃ o ∈ opened, p o = false) :
    Above floor base (Pass.giveUp p place opened level).1 (Pass.giveUp p place opened level).2
      (Pass.giveUp p place' opened' level').1 (Pass.giveUp p place' opened' level').2 := by
  induction opened generalizing level opened' level' with
  | nil =>
      cases h with
      | ground =>
        have hfloor := hstop.resolve_right (by simp)
        have hnone : Pass.giveUp p place' floor (level ++ base) = (floor, level ++ base) := by
          cases floor with
          | nil => rfl
          | cons o floor => rw [Pass.giveUp, hfloor o rfl, if_neg Bool.false_ne_true]
        rw [hnone]
        exact .ground level
  | cons o opened ih =>
      obtain rfl := hplace (List.cons_ne_nil _ _)
      cases h with
      | @more b opening _ opened' before before' h =>
        rw [Pass.giveUp, Pass.giveUp, hp h b opening]
        split
        · next ho =>
          refine ih (h.cons _) (fun _ => rfl) (hstop.imp_right ?_)
          rintro ⟨o', ho', hfalse⟩
          rcases List.mem_cons.mp ho' with rfl | ho'
          · exact absurd ho (by simp [hfalse])
          · exact ⟨o', ho', hfalse⟩
        · exact .more h level

theorem any_bracket_eq (h : Above floor base opened level opened' level') (b : Bracket) :
    opened'.any (·.bracket == b) = (opened.any (·.bracket == b) || floor.any (·.bracket == b)) := by
  induction h with
  | ground => rfl
  | more _ _ ih => rw [List.any_cons, List.any_cons, ih, Bool.or_assoc]

end Above

namespace Pass

variable {s s' : Pass}

/-- A pass has come as far on a ground as another one without. -/
structure Above (floor : List Opened) (base : List Tree) (s s' : Pass) : Prop where
  levels : Tree.Above floor base s.opened s.level s'.opened s'.level
  reach : s.opened ≠ [] → s'.reach = s.reach

theorem Above.add (hground : IsGround floor base) (h : Above floor base s s') (t : Token) :
    Above floor base (s.add t) (s'.add t) := by
  unfold Pass.add
  split
  · exact ⟨(h.levels.giveUp (fun h => h.endsAtSemicolon hground) h.reach (.inl hground.tolerates)).cons _,
      fun _ => rfl⟩
  · exact ⟨h.levels.cons _, fun _ => rfl⟩

/-- Giving up ends at a bracket that is not given up. -/
theorem giveUp_ne_nil {p : Opened → Bool} {place : Nat} {o : Opened} (ho : o ∈ opened) (hp : p o = false) :
    (giveUp p place opened level).1 ≠ [] := by
  induction opened generalizing level with
  | nil => exact absurd ho List.not_mem_nil
  | cons o' opened ih =>
      rw [giveUp]
      split
      · next ho' =>
        rcases List.mem_cons.mp ho with rfl | ho
        · exact absurd ho' (by simp [hp])
        · exact ih ho
      · exact List.cons_ne_nil _ _

/-- A token that closes a bracket closes the same one, unless it is a stray. -/
theorem Above.leave (h : Above floor base s s') (hb : bracketClosedBy? t = some b)
    (hstray : ∀ o ∈ floor, exposes o.bracket (s.leave b t).opened (s.leave b t).level = false) :
    Above floor base (s.leave b t) (s'.leave b t) := by
  unfold Pass.leave at hstray ⊢
  rw [h.levels.any_bracket_eq b]
  cases hopen : s.opened.any (·.bracket == b) with
  | true =>
      obtain ⟨o, ho, hbracket⟩ := List.any_eq_true.mp hopen
      have ho' : (o.bracket != b) = false := by simp [eq_of_beq hbracket]
      have hne : (Pass.giveUp (·.bracket != b) s.reach s.opened s.level).1 ≠ [] := giveUp_ne_nil ho ho'
      have hlevels := h.levels.giveUp (p := (·.bracket != b)) (fun _ _ _ => rfl) h.reach (.inr ⟨o, ho, ho'⟩)
      rw [Bool.true_or, if_pos rfl, if_pos rfl]
      generalize Pass.giveUp (·.bracket != b) s.reach s.opened s.level = left at hlevels hne ⊢
      generalize Pass.giveUp (·.bracket != b) s'.reach s'.opened s'.level = left' at hlevels ⊢
      obtain ⟨opened, level⟩ := left
      obtain ⟨opened', level'⟩ := left'
      cases hlevels with
      | ground => exact absurd rfl hne
      | more hlevels => exact ⟨hlevels.cons _, fun _ => rfl⟩
  | false =>
      rw [hopen] at hstray
      -- If a bracket of the floor were open for `t`, the stray would be exposed to it.
      have hfloor : floor.any (·.bracket == b) = false := by
        rw [Bool.eq_false_iff]
        intro hany
        obtain ⟨o, ho, hbracket⟩ := List.any_eq_true.mp hany
        obtain rfl := eq_of_beq hbracket
        have hexposes : exposes o.bracket s.opened (.token t :: s.level) = true :=
          exposes_of_stray hopen (by simp [stray, strayIn, hb])
        exact absurd hexposes (by simpa using hstray o ho)
      rw [hfloor]
      exact ⟨h.levels.cons _, fun _ => rfl⟩

theorem Above.push (hground : IsGround floor base) (h : Above floor base s s')
    (hstray : ∀ o ∈ floor, exposes o.bracket (s.push t).opened (s.push t).level = false) :
    Above floor base (s.push t) (s'.push t) := by
  unfold Pass.push at hstray ⊢
  split
  · exact ⟨.more h.levels [], fun _ => rfl⟩
  · next hopen hclose => exact h.leave hclose (by simpa [hopen, hclose] using hstray)
  · exact h.add hground t

theorem Above.foldl (hground : IsGround floor base) (us : List Token) (h : Above floor base s s')
    (hstray : ∀ o ∈ floor, exposes o.bracket (us.foldl Pass.push s).opened (us.foldl Pass.push s).level = false) :
    Above floor base (us.foldl Pass.push s) (us.foldl Pass.push s') := by
  induction us generalizing s s' with
  | nil => exact h
  | cons u us ih =>
      refine ih (h.push hground fun o ho => ?_) hstray
      rw [Bool.eq_false_iff]
      exact fun hexposes => absurd (exposes_foldl us hexposes) (by simpa using hstray o ho)

/-- Where all brackets are closed, none is open. -/
theorem opened_eq_nil_of_giveUp {place : Nat}
    (h : areClosed (giveUp (fun _ => true) place opened level).2 = true) : opened = [] ∧ areClosed level = true := by
  induction opened generalizing level with
  | nil => exact ⟨rfl, h⟩
  | cons o opened ih => exact absurd (ih h).2 (by simp [closeInto, areClosed, isClosed])

/-- **Tokens on a ground.** If no bracket is open in their trees, and no token is a stray that closes a bracket of
the ground, the trees are the same there. -/
theorem completes_ofTokens {us : List Token} (hclosed : areClosed (ofTokens us) = true)
    (hground : IsGround s.opened s.level) (hstray : ∀ o ∈ s.opened, stray o.bracket (ofTokens us) = false) :
    s.Completes (ofTokens us) := by
  have hall : areClosed (giveUp (fun _ => true) (us.foldl push {}).reach (us.foldl push {}).opened
      (us.foldl push {}).level).2 = true :=
    areClosed_iff.mpr fun t ht => areClosed_iff.mp hclosed t (List.mem_reverse.mpr ht)
  have hnone := (opened_eq_nil_of_giveUp hall).1
  have htrees : ofTokens us = (us.foldl push {}).level.reverse := by
    rw [ofTokens, Pass.trees, hnone, giveUp]
  have hstart : Above s.opened s.level {} s := ⟨.ground [], fun h => absurd rfl h⟩
  have hlevels := (hstart.foldl hground us fun o ho => by
    rw [hnone, exposes, stray_eq_any, ← List.any_reverse, ← htrees, ← stray_eq_any]
    exact hstray o ho).levels
  refine ⟨(us.foldl push s).reach, ?_⟩
  rw [tokensAll_ofTokens, htrees, List.reverse_reverse]
  rw [hnone] at hlevels
  generalize us.foldl push s = left at hlevels ⊢
  obtain ⟨opened, level, reach⟩ := left
  cases hlevels
  rfl

end Pass

/-- **The trees of tokens behind others** are behind the trees of those, if no bracket is open between them. -/
theorem ofTokens_append {ts us : List Token} (hts : areClosed (ofTokens ts) = true)
    (hfor : (ofTokens ts).getLast?.any (isText "for") = false) (hus : areClosed (ofTokens us) = true) :
    ofTokens (ts ++ us) = ofTokens ts ++ ofTokens us := by
  have hground : IsGround (({} : Pass).opened) (({} : Pass).level) := ⟨nofun, rfl⟩
  have hcompletes : Pass.Completes {} (ofTokens ts) := Pass.completes_ofTokens hts hground nofun
  have hboth : Pass.Completes {} (ofTokens ts ++ ofTokens us) := hcompletes.append fun reach =>
    Pass.completes_ofTokens hus ⟨nofun, by simpa using hfor⟩ nofun
  have heq := ofTokens_of_completes hboth
  rwa [tokensAll_append, tokensAll_ofTokens, tokensAll_ofTokens] at heq

theorem Pass.completes_tokens {s : Pass} {ts : List Token}
    (hts : ∀ t ∈ ts, bracketOpenedBy? t = none ∧ bracketClosedBy? t = none ∧ t.isText ";" = false) :
    s.Completes (ts.map .token) := by
  induction ts generalizing s with
  | nil => exact ⟨s.reach, rfl⟩
  | cons t ts ih =>
      obtain ⟨⟨hopen, hclose, hsemicolon⟩, hts⟩ := List.forall_mem_cons.mp hts
      have hone : s.Completes [.token t] := completes_token hopen hclose fun ht => absurd ht (by simp [hsemicolon])
      exact hone.append fun reach => ih hts

/-- **The trees of tokens in braces** are those of the tokens, if none of them closes the braces. -/
theorem ofTokens_braces {ts us : List Token} {opening closing : Token}
    (hts : ∀ t ∈ ts, bracketOpenedBy? t = none ∧ bracketClosedBy? t = none ∧ t.isText ";" = false)
    (hopen : bracketOpenedBy? opening = some .curly) (hnone : bracketOpenedBy? closing = none)
    (hclose : bracketClosedBy? closing = some .curly) (hclosed : areClosed (ofTokens us) = true)
    (hstray : stray .curly (ofTokens us) = false) :
    ofTokens (ts ++ opening :: (us ++ [closing])) =
      ts.map .token ++ [.group .curly opening (ofTokens us) (.present closing)] := by
  have hfront : Pass.Completes {} (ts.map .token) := Pass.completes_tokens hts
  have hall := hfront.append fun reach => Pass.completes_group hopen hnone hclose <|
    Pass.completes_ofTokens hclosed ⟨fun o ho => Option.some.inj ho ▸ rfl, rfl⟩
      fun o ho => List.mem_singleton.mp ho ▸ hstray
  have heq := ofTokens_of_completes hall
  rwa [tokensAll_append, tokensAll_map_token, tokensAll_cons, tokens, tokensAll_ofTokens, tokensAll_nil, List.append_nil] at heq

end InteropStubs.Tree
