import InteropStubs.Proofs.Token.Trivia

/-!
# Tokens around trivia

Trivia that is put in front of a token changes no more than the gap in front of that token
(`Token.twins_insert`), and trivia at the end of a text changes nothing (`Token.twins_append`). What is behind
a text and a line break has its tokens behind those of the text (`Token.exists_below`).
-/

namespace InteropStubs.Token

open Lexeme

variable {p : Nat} {cs rest f : List Char} {ts ts' us us' : List Token}

theorem Kin.twin {t t' : Token} (h : Kin t t') : Twin p t t' :=
  ⟨h.kind, h.text, fun _ => h.gap⟩

theorem kin_headless (h : List.Forall₂ Kin us us') : List.Forall₂ Kin (headless us) (headless us') := by
  cases h with
  | nil => exact .nil
  | cons hkin h => exact .cons ⟨hkin.kind, hkin.text, rfl⟩ h

theorem kin_headless_behind (start start' : Nat) (cs : List Char) :
    List.Forall₂ Kin (headless (behind start cs)) (headless (behind start' cs)) :=
  kin_headless (kin_ofLexemes _ _ _ _)

/-- Tokens that are the same but for the gap in front of the first. -/
theorem twins_of_headless (h : List.Forall₂ Kin (headless ts) (headless ts'))
    (hp : ∀ t ∈ ts.head?, t.start = p) : List.Forall₂ (Twin p) ts ts' := by
  cases ts with
  | nil =>
      obtain rfl : ts' = [] := headless_eq_nil_iff.mp (List.forall₂_nil_left_iff.mp h)
      exact .nil
  | cons t ts =>
      cases ts' with
      | nil => exact absurd h nofun
      | cons t' ts' =>
          obtain ⟨hkin, hrest⟩ := List.forall₂_cons.mp h
          exact .cons ⟨hkin.kind, hkin.text, fun hne => absurd (hp t rfl) hne⟩ (hrest.imp fun _ _ => Kin.twin)

/-- A text that ends outside of strings, up to its last token and what follows that. -/
theorem exists_end (hended : Ended (ofChars cs)) (hbroken : ∀ t ∈ ofChars cs, t.isBroken = false) :
    ∃ front gap, cs = front ++ gap ∧ Skips (gap ++ ['\n']) ∧
      (Skips gap ∨ (EndsInLine (Lexeme.ofChars cs) ∧ Swallows gap)) ∧
      ∀ start rest, ∃ ts', List.Forall₂ Kin (ofChars cs) ts' ∧
        behind start (cs ++ rest) = ts' ++ behind (start + front.length) (gap ++ rest) := by
  obtain ⟨front, tail, rfl, hnil, ⟨lexemes, hlexemes⟩, hall⟩ :=
    exists_front (List.append_nil _).symm hended hbroken
  obtain ⟨gap, rest, hgap⟩ := exists_gap tail
  obtain rfl : rest = [] := by
    by_contra hne
    obtain ⟨t, ts, ht, -⟩ := hgap.token hne (front.length + gap.length)
    have hpasses := hgap.passes front.length
    rw [← hnil, ht] at hpasses
    exact absurd hpasses nofun
  obtain rfl : tail = gap := hgap.split.trans (List.append_nil gap)
  refine ⟨front, tail, rfl, hgap.skips_break, ?_, fun start rest => ?_⟩
  · rw [hlexemes]
    exact (hgap.last rfl).imp_right fun ⟨hline, hswallows⟩ => ⟨hline.append_left lexemes, hswallows⟩
  · rw [List.append_assoc]
    exact hall start _

/-- **Trivia at the end of a text**, unless it goes on with a comment there. -/
theorem twins_append {X : List Char} (hended : Ended (ofChars cs))
    (hbroken : ∀ t ∈ ofChars cs, t.isBroken = false) (hX : Trivia X)
    (hend : EndsInLine (Lexeme.ofChars cs) → Trivia (belowLine X)) :
    List.Forall₂ (Twin p) (ofChars cs) (ofChars (cs ++ X)) := by
  obtain ⟨front, gap, -, -, hgap, hall⟩ := exists_end hended hbroken
  obtain ⟨ts', hts', heq⟩ := hall 0 X
  have hnil : behind (0 + front.length) (gap ++ X) = [] := by
    rcases hgap with hskips | ⟨hline, hswallows⟩
    · exact (hskips.append hX.skips).behind_eq_nil
    · exact hswallows X (fun _ => (hend hline).skips.behind_eq_nil) _
  rw [hnil, List.append_nil] at heq
  rw [← behind_zero (cs ++ X), heq]
  exact hts'.imp fun _ _ => Kin.twin

/-- **Trivia in front of a token** behind a semicolon or a brace. -/
theorem twins_insert {X : List Char} (hborder : Border p (ofChars cs))
    (hbroken : ∀ t ∈ ofChars cs, t.isBroken = false) (hX : Trivia X) :
    List.Forall₂ (Twin p) (ofChars cs) (ofChars (cs.take p ++ X ++ cs.drop p)) := by
  obtain ⟨ts, t, back, hts, rfl, hended, -⟩ := hborder
  obtain ⟨front, tail, rfl, htail, -, hall⟩ :=
    exists_front hts hended fun u hu => hbroken u (hts ▸ List.mem_append_left _ hu)
  obtain ⟨gap, rest, hgap⟩ := exists_gap tail
  have hpasses := hgap.passes front.length
  have hne : rest ≠ [] := by
    rintro rfl
    rw [← htail] at hpasses
    exact absurd hpasses nofun
  have hstart : t.start = (front ++ gap).length := by
    obtain ⟨u, us, hu, hstart⟩ := hgap.token hne (front.length + gap.length)
    rw [← htail, hu] at hpasses
    have hstarts := congrArg (fun ts => ts.head?.map start) hpasses
    rw [List.length_append, ← hstart]
    simpa [headless] using hstarts
  have hsplit := hgap.split
  subst hsplit
  -- `X` is put between the gap that was there and the token.
  have hskip := ((hgap.skips hne).append hX.skips) front.length rest
  obtain ⟨ts', hkin, heq⟩ := hall 0 ((gap ++ X) ++ rest)
  rw [Nat.zero_add] at heq
  have hnew : ofChars ((front ++ (gap ++ rest)).take t.start ++ X ++ (front ++ (gap ++ rest)).drop t.start) =
      ts' ++ behind front.length ((gap ++ X) ++ rest) := by
    rw [hstart, ← List.append_assoc front, List.take_left, List.drop_left, ← heq, behind_zero]
    simp
  rw [hts, hnew]
  refine List.rel_append (hkin.imp fun _ _ => Kin.twin) (twins_of_headless ?_ (by simp))
  rw [hskip, htail, hpasses]
  exact kin_headless_behind _ _ _

/-- **What is behind a text and a line break.** -/
theorem exists_below (hended : Ended (ofChars cs)) (hbroken : ∀ t ∈ ofChars cs, t.isBroken = false) (start : Nat)
    (rest : List Char) :
    ∃ ts' us', behind start (cs ++ '\n' :: rest) = ts' ++ us' ∧ List.Forall₂ Kin (ofChars cs) ts' ∧
      List.Forall₂ Kin (headless (ofChars rest)) (headless us') := by
  obtain ⟨front, gap, -, hskips, -, hall⟩ := exists_end hended hbroken
  obtain ⟨ts', hts', heq⟩ := hall start ('\n' :: rest)
  refine ⟨ts', _, heq, hts', ?_⟩
  rw [List.append_cons, hskips]
  exact kin_headless_behind _ _ _

end InteropStubs.Token
