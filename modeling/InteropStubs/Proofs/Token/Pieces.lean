import InteropStubs.Proofs.Token.Spelling

/-!
# Texts piece by piece

A text that is put together from pieces is read from its beginning: what one piece gives (`Token.Provides`) does not
depend on what follows. What is passed over gives nothing (`Token.provides_of_skips`), and tokens that are spelled give
such tokens, if a blank is behind them (`Token.Spells.provides`).
-/

namespace InteropStubs.Token

open Lexeme Scan Text

variable {cs cs' : List Char} {ts us vs : List Token} {P Q : List Token → Prop} {c : Char}

/-- A text has some tokens, but for where they stand and the gap in front of the first. -/
def Yields (cs : List Char) (ts : List Token) : Prop :=
  List.Forall₂ Kin (headless (ofChars cs)) (headless ts)

/-- Some characters at the beginning of a text give tokens with a property, whatever follows them. -/
def Provides (cs : List Char) (P : List Token → Prop) : Prop :=
  ∀ rest ts, Yields (cs ++ rest) ts → ∃ us vs, ts = us ++ vs ∧ P us ∧ Yields rest vs

theorem Yields.refl (cs : List Char) : Yields cs (ofChars cs) :=
  kin_headless_behind 0 0 cs

namespace Provides

theorem mono (h : Provides cs P) (hP : ∀ us, P us → Q us) : Provides cs Q := fun rest ts hts => by
  obtain ⟨us, vs, rfl, hus, hvs⟩ := h rest ts hts
  exact ⟨us, vs, rfl, hP us hus, hvs⟩

theorem append (h : Provides cs P) (h' : Provides cs' Q) :
    Provides (cs ++ cs') fun ts => ∃ us vs, ts = us ++ vs ∧ P us ∧ Q vs := fun rest ts hts => by
  rw [List.append_assoc] at hts
  obtain ⟨us, vs, rfl, hus, hvs⟩ := h _ ts hts
  obtain ⟨vs, ws, rfl, hvs, hws⟩ := h' _ vs hvs
  exact ⟨us ++ vs, ws, (List.append_assoc ..).symm, ⟨us, vs, rfl, hus, hvs⟩, hws⟩

/-- The tokens of a text that is read to its end. -/
theorem ofChars (h : Provides cs P) : P (ofChars cs) := by
  obtain ⟨us, vs, hsplit, hus, hvs⟩ := h [] (Token.ofChars cs) (by rw [List.append_nil]; exact .refl cs)
  obtain rfl : vs = [] := headless_eq_nil_iff.mp (List.forall₂_nil_left_iff.mp hvs)
  rwa [hsplit, List.append_nil]

end Provides

/-- What is passed over gives nothing. -/
theorem provides_of_skips (h : Skips cs) : Provides cs (· = []) := fun rest ts hts => by
  refine ⟨[], ts, rfl, rfl, ?_⟩
  have hskip := h 0 rest
  rw [behind_zero] at hskip
  rw [Yields, hskip] at hts
  exact kin_trans (kin_headless_behind _ _ _) hts

/-- It may stand in front of what gives something. -/
theorem Provides.skip (h : Provides cs' P) (hcs : Skips cs) : Provides (cs ++ cs') P :=
  ((provides_of_skips hcs).append h).mono fun ts hts => by
    obtain ⟨us, vs, rfl, rfl, hvs⟩ := hts
    exact hvs

/-- **Tokens that are spelled** are given, if a blank is behind them. -/
theorem Spells.provides (h : Spells cs (headless ts)) (hc : isBlank c = true) :
    Provides (cs ++ [c]) fun us => List.Forall₂ Kin (headless ts) (headless us) := fun rest vs hvs => by
  have hhead : ∀ d ∈ (c :: rest).head?, isBlank d = true := forall_mem_head?_cons hc rest
  obtain ⟨ts', hkin, hbehind⟩ := h 0 (c :: rest) hhead
  rw [List.append_assoc, List.singleton_append, Yields, ← behind_zero, hbehind] at hvs
  obtain ⟨us, vs, rfl, hus, hvs⟩ := exists_of_kin_append hvs
  refine ⟨us, vs, rfl, ?_, ?_⟩
  · have htwice : headless (headless ts) = headless ts := by cases ts <;> rfl
    exact kin_trans (htwice ▸ kin_headless hkin) hus
  · have hskip := skips_blank hc (0 + cs.length) rest
    rw [List.singleton_append] at hskip
    rw [hskip] at hvs
    exact kin_trans (kin_headless_behind _ _ _) hvs

/-! ### Single tokens -/

/-- One token of its own in front of blanks. -/
theorem provides_token {kind : Kind} {text : String}
    (h : ∀ new, (∀ d ∈ new.head?, isBlank d = true) →
      cut [] 0 (text.toList ++ new) = ⟨.token kind, text.toList⟩ :: cut [] 0 new) (hc : isBlank c = true) :
    Provides (text.toList ++ [c]) fun us => ∃ u, us = [u] ∧ u.kind = kind ∧ u.text = text := by
  let t : Token := ⟨kind, [], text, 0, 0⟩
  have htext : verbatim [t] = text := by simp [verbatim, t]
  have hspells : Spells text.toList (headless [t]) := by
    rw [← htext]
    refine spells_of_cut fun new hnew => ?_
    rw [htext]
    exact h new hnew
  refine (hspells.provides hc).mono fun us hus => ?_
  cases us with
  | nil => exact absurd (List.forall₂_nil_right_iff.mp hus) (by simp [headless])
  | cons u us =>
      obtain ⟨hkin, hnil⟩ := List.forall₂_cons.mp hus
      obtain rfl := List.forall₂_nil_left_iff.mp hnil
      exact ⟨u, rfl, hkin.kind, hkin.text⟩

/-- A word. -/
theorem provides_word {text : String} (h : word? text.toList = some text.toList.length) (hc : isBlank c = true) :
    Provides (text.toList ++ [c]) fun us => ∃ u, us = [u] ∧ u.kind = .word ∧ u.text = text :=
  provides_token (fun _ hnew => cut_word h fun d hd => endsWord_of_isBlank (hnew d hd)) hc

/-- A brace. -/
theorem provides_brace {text : String} (h : text = openBrace ∨ text = closeBrace) (hc : isBlank c = true) :
    Provides (text.toList ++ [c]) fun us => ∃ u, us = [u] ∧ u.kind = .mark ∧ u.text = text := by
  refine provides_token (fun new hnew => ?_) hc
  have hquiet : ∀ d ∈ new.head?, isQuiet d = true := fun d hd => isQuiet_of_isBlank (hnew d hd)
  rcases h with rfl | rfl
  · exact cut_mark (by decide) hquiet
  · exact cut_mark (by decide) hquiet

end InteropStubs.Token
