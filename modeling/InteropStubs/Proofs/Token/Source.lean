import InteropStubs.Text.Position
import InteropStubs.Token.OfText

/-!
# Tokens and their source

The lexemes of a text make up the whole text, in order (`Lexeme.flatMap_text_ofChars`), and so every
token of a text, with the gap in front of it, is a stretch of the text at the place that the token
names (`Token.CutFrom`, `Token.cutFrom_ofChars`).

* `Token.CutFrom.exists_verbatim`: tokens that follow one another are written in the text as
  `Token.verbatim` writes them, from the place on where the first one starts.
* `Token.CutFrom.pairwise_start`: each token starts behind the one before it.
-/

namespace InteropStubs

namespace Lexeme

theorem flatMap_text_cut (around : List Surrounding) (skip : Nat) (cs : List Char) :
    (cut around skip cs).flatMap text = cs.drop skip := by
  induction cs generalizing around skip with
  | nil => simp [cut]
  | cons c cs ih =>
      cases skip with
      | zero => simp [cut, ih]
      | succ skip => simp [cut, ih]

/-- **Nothing of a text is lost.** -/
theorem flatMap_text_ofChars (cs : List Char) : (ofChars cs).flatMap text = cs :=
  flatMap_text_cut [] 0 cs

theorem text_ne_nil_of_mem_cut {around : List Surrounding} {skip : Nat} {cs : List Char} {l : Lexeme}
    (h : l ∈ cut around skip cs) : l.text ≠ [] := by
  induction cs generalizing around skip with
  | nil => simp [cut] at h
  | cons c cs ih =>
      cases skip with
      | succ skip => exact ih h
      | zero =>
          rw [cut] at h
          rcases List.mem_cons.mp h with rfl | h
          · exact List.cons_ne_nil _ _
          · exact ih h

end Lexeme

namespace Token

/-- The tokens are cut from the beginning of a text that begins at an offset: a gap, a token, a gap,
a token, with nothing between them and nothing left out in front of the last one. -/
inductive CutFrom : Nat → List Char → List Token → Prop where
  | nil (start : Nat) (cs : List Char) : CutFrom start cs []
  | cons {start : Nat} {cs rest : List Char} {t : Token} {ts : List Token} (hne : t.text ≠ "")
      (hstart : t.start = start + t.gapText.length)
      (hcs : cs = t.gapText.toList ++ (t.text.toList ++ rest)) (hrest : CutFrom t.stop rest ts) :
      CutFrom start cs (t :: ts)

/-- The text of some pieces, the nearest first. -/
def textOf (gap : List Piece) : String :=
  String.join (gap.reverse.map Piece.text)

theorem textOf_cons (p : Piece) (gap : List Piece) : textOf (p :: gap) = textOf gap ++ p.text := by
  simp [textOf]

theorem cutFrom_ofLexemes (origin : Nat) (gap : List Piece) {lexemes : List Lexeme}
    (h : ∀ l ∈ lexemes, l.text ≠ []) :
    CutFrom origin ((textOf gap).toList ++ lexemes.flatMap Lexeme.text)
      (ofLexemes (origin + (textOf gap).length) gap lexemes) := by
  induction lexemes generalizing origin gap with
  | nil => exact .nil _ _
  | cons l lexemes ih =>
      obtain ⟨shape, cs⟩ := l
      have htail : ∀ l ∈ lexemes, l.text ≠ [] := fun l hl => h l (List.mem_cons_of_mem _ hl)
      -- a piece of a gap goes on with the gap made longer by it
      have hpiece (p : Piece) (hp : p.text = String.ofList cs) :
          CutFrom origin ((textOf gap).toList ++ (⟨shape, cs⟩ :: lexemes).flatMap Lexeme.text)
            (ofLexemes (origin + (textOf gap).length + cs.length) (p :: gap) lexemes) := by
        have := ih origin (p :: gap) htail
        rw [textOf_cons, hp, String.toList_append, String.toList_ofList, String.length_append,
          String.length_ofList, List.append_assoc, ← Nat.add_assoc] at this
        exact this
      cases shape with
      | blank => exact hpiece (.blank _) rfl
      | comment => exact hpiece (.comment _) rfl
      | directive => exact hpiece (.directive _) rfl
      | token kind =>
          let t : Token := ⟨kind, gap.reverse, String.ofList cs, origin + (textOf gap).length,
            Lexeme.trail 0 0 lexemes⟩
          have hne : t.text ≠ "" := by
            have hcs : cs ≠ [] := h ⟨.token kind, cs⟩ List.mem_cons_self
            simpa [t] using hcs
          have hstop : t.stop = origin + (textOf gap).length + cs.length := by
            simp [t, stop]
          have hof : ofLexemes (origin + (textOf gap).length) gap (⟨.token kind, cs⟩ :: lexemes) =
              t :: ofLexemes t.stop [] lexemes := by rw [hstop]; rfl
          rw [hof]
          exact .cons hne rfl (by simp [t, gapText, textOf]) (ih t.stop [] htail)

/-- **The tokens of a text are cut from it.** -/
theorem cutFrom_ofChars (cs : List Char) : CutFrom 0 cs (ofChars cs) := by
  have h := cutFrom_ofLexemes 0 [] fun l (hl : l ∈ Lexeme.ofChars cs) =>
    Lexeme.text_ne_nil_of_mem_cut hl
  rw [Lexeme.flatMap_text_ofChars] at h
  exact h

theorem le_start_of_mem_ofLexemes {start : Nat} {gap : List Piece} {lexemes : List Lexeme} {t : Token}
    (h : t ∈ ofLexemes start gap lexemes) : start ≤ t.start := by
  induction lexemes generalizing start gap with
  | nil => exact absurd h List.not_mem_nil
  | cons l lexemes ih =>
      obtain ⟨shape, cs⟩ := l
      cases shape with
      | blank => exact Nat.le_trans (Nat.le_add_right _ _) (ih h)
      | comment => exact Nat.le_trans (Nat.le_add_right _ _) (ih h)
      | directive => exact Nat.le_trans (Nat.le_add_right _ _) (ih h)
      | token kind =>
          rcases List.mem_cons.mp h with rfl | h
          · exact Nat.le_refl _
          · exact Nat.le_trans (Nat.le_add_right _ _) (ih h)

/-- No token starts in the blanks at the beginning of a text. -/
theorem firstTokenOffset_le_start {cs : List Char} {t : Token} (h : t ∈ ofChars cs) :
    Text.firstTokenOffset cs ≤ t.start := by
  cases cs with
  | nil => exact Nat.zero_le _
  | cons c cs =>
      cases hc : Text.isBlank c with
      | false => simp [Text.firstTokenOffset, hc]
      | true =>
          simp only [ofChars, Lexeme.ofChars, Lexeme.cut, Lexeme.next, Lexeme.first_of_isBlank hc, ofLexemes] at h
          have hle := le_start_of_mem_ofLexemes h
          have htake : cs.take (Scan.countWhile Text.isBlank cs) = cs.takeWhile Text.isBlank :=
            (List.prefix_iff_eq_take.mp (List.takeWhile_prefix _)).symm
          rw [htake] at hle
          simpa [Text.firstTokenOffset, hc] using hle

namespace CutFrom

/-- Some tokens left out in front. -/
theorem exists_suffix {start : Nat} {cs : List Char} {before ts : List Token}
    (h : CutFrom start cs (before ++ ts)) :
    ∃ pre rest, cs = pre ++ rest ∧ CutFrom (start + pre.length) rest ts := by
  induction before generalizing start cs with
  | nil => exact ⟨[], cs, rfl, h⟩
  | cons t before ih =>
      obtain _ | ⟨hne, hstart, rfl, hrest⟩ := h
      obtain ⟨pre, rest, rfl, hts⟩ := ih hrest
      refine ⟨t.gapText.toList ++ (t.text.toList ++ pre), rest, by simp, ?_⟩
      have hlength : (t.gapText.toList ++ (t.text.toList ++ pre)).length =
          t.gapText.length + t.text.length + pre.length := by
        simp [Nat.add_assoc, String.length_toList]
      rwa [hlength, ← Nat.add_assoc, ← Nat.add_assoc, ← hstart]

/-- The first tokens, with the gap in front of them. -/
theorem exists_prefix {start : Nat} {cs : List Char} {t : Token} {mid after : List Token}
    (h : CutFrom start cs (t :: (mid ++ after))) :
    ∃ rest, cs = t.gapText.toList ++ ((verbatim (t :: mid)).toList ++ rest) := by
  induction mid generalizing start cs t with
  | nil =>
      obtain _ | ⟨hne, hstart, rfl, hrest⟩ := h
      exact ⟨_, by simp [verbatim]; rfl⟩
  | cons u mid ih =>
      obtain _ | ⟨hne, hstart, rfl, hrest⟩ := h
      obtain ⟨rest, rfl⟩ := ih hrest
      exact ⟨rest, by simp [verbatim]⟩

/-- **Tokens that follow one another stand in the text as they are written**, and the first one is
where it says. -/
theorem exists_verbatim {cs : List Char} {ts mid : List Token} {t : Token} (h : CutFrom 0 cs ts)
    (hmid : t :: mid <:+: ts) :
    ∃ before rest, cs = before ++ (verbatim (t :: mid)).toList ++ rest ∧ before.length = t.start := by
  obtain ⟨front, after, rfl⟩ := hmid
  rw [List.append_assoc] at h
  obtain ⟨pre, tail, rfl, hts⟩ := h.exists_suffix
  rw [List.cons_append] at hts
  obtain ⟨rest, rfl⟩ := hts.exists_prefix
  obtain _ | ⟨hne, hstart, -, hrest⟩ := hts
  exact ⟨pre ++ t.gapText.toList, rest, by simp, by simp [hstart, String.length_toList]⟩

theorem start_le {start : Nat} {cs : List Char} {ts : List Token} (h : CutFrom start cs ts) :
    ∀ t ∈ ts, start ≤ t.start := by
  induction h with
  | nil => exact nofun
  | cons hne hstart hcs hrest ih =>
      rintro u hu
      rcases List.mem_cons.mp hu with rfl | hu
      · omega
      · have := ih u hu
        rw [stop] at this
        omega

/-- **Tokens start one behind the other.** -/
theorem pairwise_start {start : Nat} {cs : List Char} {ts : List Token} (h : CutFrom start cs ts) :
    (ts.map Token.start).Pairwise (· < ·) := by
  induction h with
  | nil => exact .nil
  | @cons _ _ _ t _ hne hstart hcs hrest ih =>
      rw [List.map_cons, List.pairwise_cons]
      refine ⟨fun s hs => ?_, ih⟩
      obtain ⟨u, hu, rfl⟩ := List.mem_map.mp hs
      have hlength : 0 < t.text.length := by
        rw [← String.length_toList, List.length_pos_iff]
        simpa using hne
      have := hrest.start_le u hu
      rw [stop] at this
      omega

/-! ### Where tokens stop -/

/-- Tokens start inside the text. -/
theorem start_lt_length {start : Nat} {cs : List Char} {ts : List Token} (h : CutFrom start cs ts) :
    ∀ t ∈ ts, t.start < start + cs.length := by
  induction h with
  | nil => exact nofun
  | @cons start cs rest t _ hne hstart hcs hrest ih =>
      have hlength : 0 < t.text.length := by
        rw [← String.length_toList, List.length_pos_iff]
        simpa using hne
      have hsize : cs.length = t.gapText.length + (t.text.length + rest.length) := by
        rw [hcs, List.length_append, List.length_append, String.length_toList, String.length_toList]
      refine List.forall_mem_cons.mpr ⟨by omega, fun u hu => ?_⟩
      have := ih u hu
      rw [stop] at this
      omega

theorem start_lt_stop {start : Nat} {cs : List Char} {ts : List Token} (h : CutFrom start cs ts) :
    ∀ t ∈ ts, t.start < t.stop := by
  induction h with
  | nil => exact nofun
  | cons hne hstart hcs hrest ih =>
      refine List.forall_mem_cons.mpr ⟨?_, ih⟩
      rw [stop, Nat.lt_add_right_iff_pos, ← String.length_toList, List.length_pos_iff]
      simpa using hne

/-- Every token starts behind those in front of it. -/
theorem pairwise_stop_le {start : Nat} {cs : List Char} {ts : List Token} (h : CutFrom start cs ts) :
    ts.Pairwise fun t u => t.stop ≤ u.start := by
  induction h with
  | nil => exact .nil
  | cons hne hstart hcs hrest ih => exact List.pairwise_cons.mpr ⟨hrest.start_le, ih⟩

/-- Only one token stops at a place. -/
theorem eq_of_stop_eq {start : Nat} {cs : List Char} {ts : List Token} (h : CutFrom start cs ts) {t u : Token}
    (ht : t ∈ ts) (hu : u ∈ ts) (heq : t.stop = u.stop) : t = u := by
  have hlt := h.start_lt_stop
  obtain ⟨before, after, rfl⟩ := List.append_of_mem ht
  obtain ⟨-, hafter, hbefore⟩ := List.pairwise_append.mp h.pairwise_stop_le
  rcases List.mem_append.mp hu with hu' | hu'
  · have := hbefore u hu' t List.mem_cons_self
    have := hlt t ht
    omega
  · rcases List.mem_cons.mp hu' with rfl | hu'
    · rfl
    · have := (List.pairwise_cons.mp hafter).1 u hu'
      have := hlt u hu
      omega

/-- Only the token in front of another one stops where that one starts. -/
theorem eq_of_stop_eq_start {start : Nat} {cs : List Char} {before after : List Token} {t u v : Token}
    (h : CutFrom start cs (before ++ u :: v :: after)) (ht : t ∈ before ++ u :: v :: after)
    (heq : t.stop = v.start) : t = u := by
  have hlt := h.start_lt_stop
  obtain ⟨-, hrest, hbefore⟩ := List.pairwise_append.mp h.pairwise_stop_le
  obtain ⟨hu, hv⟩ := List.pairwise_cons.mp hrest
  have huv := hu v List.mem_cons_self
  have hult := hlt u (by simp)
  rcases List.mem_append.mp ht with ht' | ht'
  · have := hbefore t ht' u List.mem_cons_self
    omega
  · rcases List.mem_cons.mp ht' with rfl | ht'
    · rfl
    · have htlt := hlt t ht
      rcases List.mem_cons.mp ht' with rfl | ht'
      · omega
      · have := (List.pairwise_cons.mp hv).1 t ht'
        have := hlt v (by simp)
        omega

/-- What some tokens are written as stops where the last of them does. -/
theorem start_add_length_verbatim {cs : List Char} {ts mid : List Token} {t l : Token} {start : Nat}
    (h : CutFrom start cs (t :: (mid ++ ts))) (hl : (t :: mid).getLast? = some l) :
    t.start + (verbatim (t :: mid)).length = l.stop := by
  induction mid generalizing start cs t with
  | nil =>
      obtain rfl : t = l := by simpa using hl
      simp [verbatim, stop]
  | cons u mid ih =>
      obtain _ | ⟨hne, hstart, -, hrest⟩ := h
      have hstop := ih hrest (by simpa [List.getLast?_cons_cons] using hl)
      obtain _ | ⟨-, hu, -, -⟩ := hrest
      have hverbatim : (verbatim (t :: u :: mid)).length =
          t.text.length + u.gapText.length + (verbatim (u :: mid)).length := by
        simp [verbatim, Nat.add_assoc]
      rw [hverbatim, ← hstop, hu, stop]
      omega

end CutFrom

end Token

end InteropStubs
