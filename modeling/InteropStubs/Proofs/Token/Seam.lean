import InteropStubs.Proofs.File.Seam
import InteropStubs.Proofs.Token.Front

/-!
# Texts put together

The tokens of a text are those of its front, if that ends with a semicolon or a brace outside of strings,
and those of what follows (`Token.exists_front`).
-/

namespace InteropStubs

/-- The kind of token that a lexeme is. -/
def Shape.kind? : Shape → Option Token.Kind
  | .token kind => some kind
  | .blank | .comment | .directive => none

namespace Lexeme

/-- The kinds of the tokens among some lexemes. -/
def kinds (lexemes : List Lexeme) : List Token.Kind :=
  lexemes.filterMap fun l => l.shape.kind?

/-- Strings are opened by the tokens that open them. -/
theorem opened_eq (lexemes : List Lexeme) : opened lexemes = (kinds lexemes).count .openingQuote := by
  induction lexemes with
  | nil => rfl
  | cons l lexemes ih =>
      obtain ⟨shape, cs⟩ := l
      simp only [opened, kinds, List.countP_cons, List.filterMap_cons] at ih ⊢
      cases shape <;> simp [Shape.kind?, List.count_cons, ih]

/-- Strings are closed by the tokens that close them. -/
theorem closed_eq (lexemes : List Lexeme) : closed lexemes = (kinds lexemes).count .closingQuote := by
  induction lexemes with
  | nil => rfl
  | cons l lexemes ih =>
      obtain ⟨shape, cs⟩ := l
      simp only [closed, kinds, List.countP_cons, List.filterMap_cons] at ih ⊢
      cases shape <;> simp [Shape.kind?, List.count_cons, ih]

@[simp] theorem chars_cons (l : Lexeme) (lexemes : List Lexeme) : chars (l :: lexemes) = l.text ++ chars lexemes :=
  List.flatMap_cons

end Lexeme

namespace Token

open Lexeme

/-- A token is broken just as its shape is. -/
theorem isBroken_shape (t : Token) : (Shape.token t.kind).isBroken = t.isBroken := by
  unfold isBroken Shape.isBroken
  cases t.kind <;> rfl

/-- Two tokens that differ at most in where they stand. -/
structure Kin (t t' : Token) : Prop where
  kind : t'.kind = t.kind
  text : t'.text = t.text
  gap : t'.gap = t.gap

theorem Kin.trans {t t' t'' : Token} (h : Kin t t') (h' : Kin t' t'') : Kin t t'' :=
  ⟨h'.kind.trans h.kind, h'.text.trans h.text, h'.gap.trans h.gap⟩

/-- The tokens of a text that begins at a place outside of strings. -/
def behind (start : Nat) (cs : List Char) : List Token :=
  ofLexemes start [] (Lexeme.cut [] 0 cs)

/-- Behind nothing all tokens are left. -/
theorem behind_zero (cs : List Char) : behind 0 cs = ofChars cs := rfl

/-- The kinds of the tokens are those of the lexemes that are none of a gap. -/
theorem map_kind_ofLexemes (start : Nat) (gap : List Piece) (lexemes : List Lexeme) :
    (ofLexemes start gap lexemes).map kind = kinds lexemes := by
  induction lexemes generalizing start gap with
  | nil => rfl
  | cons l lexemes ih =>
      obtain ⟨shape, cs⟩ := l
      cases shape with
      | blank | comment | directive => exact ih _ _
      | token kind => exact congrArg (kind :: ·) (ih _ _)

/-- Wherever lexemes begin, their tokens are the same. -/
theorem kin_ofLexemes (start start' : Nat) (gap : List Piece) (lexemes : List Lexeme) :
    List.Forall₂ Kin (ofLexemes start gap lexemes) (ofLexemes start' gap lexemes) := by
  induction lexemes generalizing start start' gap with
  | nil => exact .nil
  | cons l lexemes ih =>
      obtain ⟨shape, cs⟩ := l
      cases shape with
      | blank | comment | directive => exact ih _ _ _
      | token kind => exact .cons ⟨rfl, rfl, rfl⟩ (ih _ _ _)

/-- Tokens that are alike have the same kinds. -/
theorem map_kind_of_kin {ts ts' : List Token} (h : List.Forall₂ Kin ts ts') : ts'.map kind = ts.map kind := by
  induction h with
  | nil => rfl
  | cons hkin _ ih => rw [List.map_cons, List.map_cons, hkin.kind, ih]

/-- The quotes that open strings are counted by kind. -/
theorem openedQuotes_eq (ts : List Token) : Tree.openedQuotes ts = (ts.map kind).count .openingQuote := by
  rw [Tree.openedQuotes, List.count, List.countP_map]
  rfl

/-- The quotes that close strings are counted by kind. -/
theorem closedQuotes_eq (ts : List Token) : Tree.closedQuotes ts = (ts.map kind).count .closingQuote := by
  rw [Tree.closedQuotes, List.count, List.countP_map]
  rfl

/-- Lexemes are not broken, if the tokens among them are not. -/
theorem unbroken_of_kinds {lexemes : List Lexeme} {ts : List Token} (hkinds : kinds lexemes ⊆ ts.map kind)
    (hbroken : ∀ t ∈ ts, t.isBroken = false) : ∀ l ∈ lexemes, l.shape.isBroken = false := by
  intro l hl
  cases hshape : l.shape with
  | token kind =>
      have hmem : kind ∈ kinds lexemes := List.mem_filterMap.mpr ⟨l, hl, by rw [hshape]; rfl⟩
      obtain ⟨t, ht, rfl⟩ := List.mem_map.mp (hkinds hmem)
      exact (isBroken_shape t).trans (hbroken t ht)
  | _ => rfl

/-- Lexemes end the strings that they begin, if tokens do so that are not in them but for some without quotes. -/
theorem opened_le_closed_of_quotes {lexemes : List Lexeme} {ts : List Token} {behind : List Kind}
    (hkinds : kinds lexemes ++ behind = ts.map kind) (hbehind : ∀ k ∈ behind, k ≠ .openingQuote ∧ k ≠ .closingQuote)
    (hquotes : Tree.openedQuotes ts ≤ Tree.closedQuotes ts) : Surrounding.height [] + opened lexemes ≤ closed lexemes := by
  have hopening : behind.count .openingQuote = 0 := List.count_eq_zero.mpr fun hmem => (hbehind _ hmem).1 rfl
  have hclosing : behind.count .closingQuote = 0 := List.count_eq_zero.mpr fun hmem => (hbehind _ hmem).2 rfl
  rw [openedQuotes_eq, closedQuotes_eq, ← hkinds, List.count_append, List.count_append, hopening, hclosing] at hquotes
  rw [opened_eq, closed_eq]
  simpa [Surrounding.height] using hquotes

/-! ### Fronts -/

/-- Lexemes part behind a token: those up to it give the tokens up to it wherever they stand and whatever follows
them, and those behind it give the others. -/
structure PartsBehind (b : Token) (start : Nat) (gap : List Piece) (lexemes front rest : List Lexeme)
    (ts us : List Token) : Prop where
  lexemes_eq : lexemes = front ++ ⟨.token b.kind, b.text.toList⟩ :: rest
  behind_eq : us = ofLexemes (start + (chars front).length + b.text.length) [] rest
  exists_kin : ∀ start' rest', ∃ ts', List.Forall₂ Kin ts ts' ∧
    ofLexemes start' gap (front ++ ⟨.token b.kind, b.text.toList⟩ :: rest') =
      ts' ++ ofLexemes (start' + (chars front).length + b.text.length) [] rest'

namespace PartsBehind

variable {b : Token} {start : Nat} {gap : List Piece} {lexemes front rest : List Lexeme} {ts us : List Token}

/-- A lexeme that is no token goes into the gap of the next token. -/
theorem piece {l : Lexeme} {p : Piece} (hof : ∀ start lexemes, ofLexemes start gap (l :: lexemes) =
      ofLexemes (start + l.text.length) (p :: gap) lexemes)
    (h : PartsBehind b (start + l.text.length) (p :: gap) lexemes front rest ts us) :
    PartsBehind b start gap (l :: lexemes) (l :: front) rest ts us where
  lexemes_eq := congrArg (l :: ·) h.lexemes_eq
  behind_eq := by
    rw [chars_cons, List.length_append, ← Nat.add_assoc]
    exact h.behind_eq
  exists_kin start' rest' := by
    rw [List.cons_append, hof, chars_cons, List.length_append, ← Nat.add_assoc]
    exact h.exists_kin _ rest'

/-- The token itself. -/
theorem here {kind : Kind} {cs : List Char} {trail : Nat}
    (hus : us = ofLexemes (start + cs.length) [] lexemes) :
    PartsBehind ⟨kind, gap.reverse, String.ofList cs, start, trail⟩ start gap (⟨.token kind, cs⟩ :: lexemes) [] lexemes
      [⟨kind, gap.reverse, String.ofList cs, start, trail⟩] us where
  lexemes_eq := by simp
  behind_eq := by simpa [chars] using hus
  exists_kin start' rest' :=
    ⟨[⟨kind, gap.reverse, String.ofList cs, start', Lexeme.trail 0 0 rest'⟩], .cons ⟨rfl, rfl, rfl⟩ .nil,
      by simp [ofLexemes, chars]⟩

/-- A token in front of it. -/
theorem token {kind : Kind} {cs : List Char} {trail : Nat}
    (h : PartsBehind b (start + cs.length) [] lexemes front rest ts us) :
    PartsBehind b start gap (⟨.token kind, cs⟩ :: lexemes) (⟨.token kind, cs⟩ :: front) rest
      (⟨kind, gap.reverse, String.ofList cs, start, trail⟩ :: ts) us where
  lexemes_eq := congrArg (_ :: ·) h.lexemes_eq
  behind_eq := by
    rw [chars_cons, List.length_append, ← Nat.add_assoc]
    exact h.behind_eq
  exists_kin start' rest' := by
    obtain ⟨ts', hts', heq⟩ := h.exists_kin (start' + cs.length) rest'
    rw [chars_cons, List.length_append, ← Nat.add_assoc]
    exact ⟨⟨kind, gap.reverse, String.ofList cs, start', _⟩ :: ts', .cons ⟨rfl, rfl, rfl⟩ hts', congrArg (_ :: ·) heq⟩

end PartsBehind

/-- The lexemes of a text part behind every token. -/
theorem exists_partsBehind {lexemes : List Lexeme} {ts us : List Token} {start : Nat} {gap : List Piece} {b : Token}
    (h : ofLexemes start gap lexemes = ts ++ us) (hb : ts.getLast? = some b) :
    ∃ front rest, PartsBehind b start gap lexemes front rest ts us := by
  induction lexemes generalizing start gap ts with
  | nil =>
      obtain rfl := (List.append_eq_nil_iff.mp h.symm).1
      exact absurd hb nofun
  | cons l lexemes ih =>
      obtain ⟨shape, cs⟩ := l
      cases shape with
      | blank | comment | directive =>
          obtain ⟨front, rest, hparts⟩ := ih h hb
          exact ⟨_, rest, hparts.piece fun _ _ => rfl⟩
      | token kind =>
          cases ts with
          | nil => exact absurd hb nofun
          | cons t ts =>
              obtain ⟨rfl, htail⟩ := List.cons.inj h
              cases hts : ts.getLast? with
              | none =>
                  obtain rfl := List.getLast?_eq_none_iff.mp hts
                  obtain rfl := Option.some.inj hb
                  exact ⟨[], lexemes, .here htail.symm⟩
              | some b' =>
                  obtain rfl : b' = b := by
                    rw [List.getLast?_cons, hts] at hb
                    exact Option.some.inj hb
                  obtain ⟨front, rest, hparts⟩ := ih htail hts
                  exact ⟨_, rest, hparts.token⟩

/-- How words begin. -/
theorem exists_beginsWord {cs : List Char} {t : Token} (ht : t ∈ ofChars cs) (hkind : t.kind = .word) :
    ∃ c rest, t.text.toList = c :: rest ∧ Scan.beginsWord c = true := by
  obtain ⟨before, after, hsplit⟩ := List.append_of_mem ht
  rw [List.append_cons] at hsplit
  obtain ⟨front, rest, hlexemes, -, -⟩ := exists_partsBehind hsplit List.getLast?_concat
  rw [hkind] at hlexemes
  have hne := text_ne_nil_of_mem_cut (hlexemes ▸ List.mem_append_right _ List.mem_cons_self)
  obtain ⟨c, more, hc⟩ := List.exists_cons_of_ne_nil hne
  dsimp only at hc
  rw [hc] at hlexemes
  exact ⟨c, more, hc, beginsWord_of_cut hlexemes⟩

/-- No word is spelled like a text that does not begin as words do. -/
theorem text_ne_of_not_beginsWord {cs : List Char} {t : Token} (ht : t ∈ ofChars cs) (hkind : t.kind = .word)
    {m : String} (hm : m.toList.head?.any Scan.beginsWord = false) : t.text ≠ m := by
  rintro rfl
  obtain ⟨c, rest, hc, hbegins⟩ := exists_beginsWord ht hkind
  rw [hc, List.head?_cons, Option.any_some, hbegins] at hm
  exact absurd hm nofun

variable {cs : List Char} {ts us : List Token}

/-- **The front of a text** that ends with a semicolon or a brace outside of strings has its tokens wherever
it stands and whatever follows it. -/
theorem exists_front (h : ofChars cs = ts ++ us) (hended : Ended ts) (hbroken : ∀ t ∈ ts, t.isBroken = false) :
    ∃ front rest, cs = front ++ rest ∧ us = behind front.length rest ∧
      (∃ lexemes, Lexeme.ofChars cs = lexemes ++ cut [] 0 rest) ∧
      ∀ start rest', ∃ ts', List.Forall₂ Kin ts ts' ∧
        behind start (front ++ rest') = ts' ++ behind (start + front.length) rest' := by
  cases hlast : ts.getLast? with
  | none =>
      obtain rfl := List.getLast?_eq_none_iff.mp hlast
      exact ⟨[], cs, rfl, h.symm, ⟨[], rfl⟩, fun start rest' => ⟨[], .nil, rfl⟩⟩
  | some b =>
      obtain ⟨front, rest, hlexemes, hus, hall⟩ := exists_partsBehind h hlast
      obtain ⟨d, hd, htext⟩ : ∃ d, Lexeme.isBorder d = true ∧ b.text = String.ofList [d] := by
        have hborder := hended.last b hlast
        simp only [isBorder, isText, Bool.or_eq_true, Bool.and_eq_true, beq_iff_eq] at hborder
        rcases hborder with (⟨-, h⟩ | ⟨-, h⟩) | ⟨-, h⟩
        · exact ⟨';', rfl, h⟩
        · exact ⟨'{', rfl, h⟩
        · exact ⟨'}', rfl, h⟩
      have hchar : b.text.toList = [d] := by rw [htext, String.toList_ofList]
      have hlength : b.text.length = 1 := by rw [htext, String.length_ofList, List.length_singleton]
      rw [hchar] at hlexemes hall
      have hkind : b.kind = .mark := by
        have hborder := hended.last b hlast
        have hword := ne_word_of_border hd hlexemes
        simp only [isBorder, isText, Bool.or_eq_true, Bool.and_eq_true, beq_iff_eq] at hborder
        rcases hborder with (⟨h, -⟩ | ⟨h, -⟩) | ⟨h, -⟩ <;> exact h.resolve_left hword
      rw [hkind] at hlexemes hall
      -- the kinds of the lexemes in front are those of the tokens
      have hkinds : kinds front ++ [.mark] = ts.map kind := by
        obtain ⟨ts', hts', heq⟩ := hall 0 []
        rw [← map_kind_of_kin hts', ← List.append_nil ts', ← show ofLexemes _ [] [] = [] from rfl, ← heq,
          map_kind_ofLexemes, kinds, kinds, List.filterMap_append]
        rfl
      have hunbroken := unbroken_of_kinds (hkinds ▸ List.subset_append_left _ _) hbroken
      have hclosed := opened_le_closed_of_quotes hkinds (by decide) hended.quotes
      obtain ⟨hcs, hrest, hmore⟩ := cut_front (mem_stops_of_isBorder hd) .nil hlexemes hunbroken hclosed
      refine ⟨chars front ++ [d], chars rest, by simpa using hcs, ?_, ?_, fun start rest' => ?_⟩
      · rw [hus, hlength, behind, hrest, List.length_append, Nat.zero_add, List.length_singleton]
      · exact ⟨front ++ [⟨.token .mark, [d]⟩], by rw [hrest]; simpa using hlexemes⟩
      · obtain ⟨ts', hts', heq⟩ := hall start (cut [] 0 rest')
        refine ⟨ts', hts', ?_⟩
        rw [behind, List.append_assoc, List.singleton_append, hmore _ (first_border hd _), heq, hlength, List.length_append,
          List.length_singleton, Nat.add_assoc]
        rfl

end Token

end InteropStubs
