import InteropStubs.Proofs.Token.Block
import InteropStubs.Proofs.Token.Plain

/-!
# Tokens that are spelled again

Some tokens of a text may be written elsewhere, as they were written in the text, and are cut off again
(`Token.Spells`): what ends with a semicolon outside of strings, and what goes on from the end of type arguments with
words and points only (`Token.spells_of_settled`).
-/

namespace InteropStubs

open Lexeme Text

/-! ### The lexemes of tokens -/

/-- The lexeme of a piece. -/
def Piece.lexeme : Piece → Lexeme
  | blank text => ⟨.blank, text.toList⟩
  | comment text => ⟨.comment, text.toList⟩
  | directive text => ⟨.directive, text.toList⟩

namespace Token

/-- The lexemes of a token and of the gap in front of it. -/
def lexemes (t : Token) : List Lexeme :=
  t.gap.map Piece.lexeme ++ [⟨.token t.kind, t.text.toList⟩]

variable {ts us before lead front back : List Token} {t : Token} {cs : List Char} {rest : List Lexeme}

theorem lexemes_headless (t : Token) (ts : List Token) :
    (headless (t :: ts)).flatMap lexemes = ⟨.token t.kind, t.text.toList⟩ :: ts.flatMap lexemes := by
  simp [headless, lexemes]

theorem flatMap_lexemes_cons (t : Token) (ts : List Token) :
    (t :: ts).flatMap lexemes = t.gap.map Piece.lexeme ++ (headless (t :: ts)).flatMap lexemes := by
  simp [headless, lexemes]

/-- **The lexemes of the tokens** of some lexemes are those lexemes, up to the last token. -/
theorem exists_lexemes (start : Nat) (gap : List Piece) (ls : List Lexeme) :
    ∃ tail, gap.reverse.map Piece.lexeme ++ ls = (ofLexemes start gap ls).flatMap lexemes ++ tail := by
  induction ls generalizing start gap with
  | nil => exact ⟨_, rfl⟩
  | cons l ls ih =>
      obtain ⟨shape, cs⟩ := l
      have hpiece (p : Piece) (hp : p.lexeme = ⟨shape, cs⟩)
          (hof : ofLexemes start gap (⟨shape, cs⟩ :: ls) = ofLexemes (start + cs.length) (p :: gap) ls) :
          ∃ tail, gap.reverse.map Piece.lexeme ++ ⟨shape, cs⟩ :: ls =
            (ofLexemes start gap (⟨shape, cs⟩ :: ls)).flatMap lexemes ++ tail := by
        obtain ⟨tail, htail⟩ := ih (start + cs.length) (p :: gap)
        rw [hof]
        refine ⟨tail, ?_⟩
        rw [← htail]
        simp [hp]
      cases shape with
      | blank => exact hpiece (.blank (String.ofList cs)) (by simp [Piece.lexeme]) rfl
      | comment => exact hpiece (.comment (String.ofList cs)) (by simp [Piece.lexeme]) rfl
      | directive => exact hpiece (.directive (String.ofList cs)) (by simp [Piece.lexeme]) rfl
      | token kind =>
          obtain ⟨tail, htail⟩ := ih (start + cs.length) []
          rw [List.reverse_nil, List.map_nil, List.nil_append] at htail
          refine ⟨tail, ?_⟩
          rw [ofLexemes_token, List.flatMap_cons, List.append_assoc, ← htail]
          simp [lexemes]

theorem ofLexemes_pieces (start : Nat) (gap pieces : List Piece) (ls : List Lexeme) :
    ofLexemes start gap (pieces.map Piece.lexeme ++ ls) =
      ofLexemes (start + (chars (pieces.map Piece.lexeme)).length) (pieces.reverse ++ gap) ls := by
  induction pieces generalizing start gap with
  | nil => rfl
  | cons p pieces ih =>
      have hp : ofLexemes start gap (p.lexeme :: (pieces.map Piece.lexeme ++ ls)) =
          ofLexemes (start + p.lexeme.text.length) (p :: gap) (pieces.map Piece.lexeme ++ ls) := by
        cases p <;> simp [Piece.lexeme, ofLexemes]
      rw [List.map_cons, List.cons_append, hp, ih, chars_cons, List.length_append, Nat.add_assoc]
      simp

/-- **The tokens of the lexemes** of some tokens are those tokens, wherever they stand. -/
theorem exists_ofLexemes (ts : List Token) (start : Nat) (ls : List Lexeme) :
    ∃ ts', List.Forall₂ Kin ts ts' ∧
      ofLexemes start [] (ts.flatMap lexemes ++ ls) = ts' ++ ofLexemes (start + (chars (ts.flatMap lexemes)).length) [] ls := by
  induction ts generalizing start with
  | nil => exact ⟨[], .nil, rfl⟩
  | cons t ts ih =>
      have heq := ofLexemes_pieces start [] t.gap (⟨.token t.kind, t.text.toList⟩ :: (ts.flatMap lexemes ++ ls))
      obtain ⟨ts', hkin, hts⟩ := ih (start + (chars (t.gap.map Piece.lexeme)).length + t.text.toList.length)
      have hsplit : (t :: ts).flatMap lexemes ++ ls =
          t.gap.map Piece.lexeme ++ ⟨.token t.kind, t.text.toList⟩ :: (ts.flatMap lexemes ++ ls) := by
        simp [lexemes]
      have hlength : start + (chars (t.gap.map Piece.lexeme)).length + t.text.toList.length +
          (chars (ts.flatMap lexemes)).length = start + (chars ((t :: ts).flatMap lexemes)).length := by
        simp only [lexemes, chars, List.flatMap_append, List.flatMap_cons, List.flatMap_nil, List.append_nil,
          List.length_append]
        omega
      rw [ofLexemes_token, hts, hlength, ← List.cons_append, List.append_nil, List.reverse_reverse,
        String.ofList_toList] at heq
      refine ⟨_ :: ts', .cons ?_ hkin, (congrArg (ofLexemes start []) hsplit).trans heq⟩
      exact ⟨rfl, rfl, rfl⟩

/-! ### Tokens as they are written -/

theorem chars_append (ls ms : List Lexeme) : chars (ls ++ ms) = chars ls ++ chars ms :=
  List.flatMap_append

theorem chars_pieces (pieces : List Piece) :
    chars (pieces.map Piece.lexeme) = (String.join (pieces.map Piece.text)).toList := by
  induction pieces with
  | nil => rfl
  | cons p pieces ih =>
      rw [List.map_cons, chars_cons, ih, List.map_cons, String.join_cons, String.toList_append]
      cases p <;> rfl

/-- The lexemes of tokens make up what is written for them. -/
theorem chars_headless (ts : List Token) : chars ((headless ts).flatMap lexemes) = (verbatim ts).toList := by
  have hall (ts : List Token) :
      chars (ts.flatMap lexemes) = (String.join (ts.map fun u => u.gapText ++ u.text)).toList := by
    induction ts with
    | nil => rfl
    | cons t ts ih =>
        rw [List.flatMap_cons, chars_append, ih, List.map_cons, String.join_cons, String.toList_append, lexemes,
          chars_append, chars_pieces, String.toList_append, gapText]
        simp [chars]
  cases ts with
  | nil => rfl
  | cons t ts => rw [lexemes_headless, chars_cons, hall, verbatim, String.toList_append]

/-! ### Spelling -/

/-- In front of a blank, and at the end, a text is cut into some tokens, wherever it stands. -/
def Spells (cs : List Char) (ts : List Token) : Prop :=
  ∀ start new, (∀ d ∈ new.head?, isBlank d = true) →
    ∃ ts', List.Forall₂ Kin ts ts' ∧ behind start (cs ++ new) = ts' ++ behind (start + cs.length) new

theorem spells_of_cut (h : ∀ new, (∀ d ∈ new.head?, isBlank d = true) →
      cut [] 0 ((verbatim ts).toList ++ new) = (headless ts).flatMap lexemes ++ cut [] 0 new) :
    Spells (verbatim ts).toList (headless ts) := fun start new hnew => by
  rw [behind, h new hnew, ← chars_headless]
  exact exists_ofLexemes (headless ts) start (cut [] 0 new)

/-- Whether a token is a word, a point or the mark behind an alias. -/
def IsPlain (t : Token) : Prop :=
  t.kind = .word ∨ t.kind = .mark ∧ (t.text = "." ∨ t.text = "::")

theorem isPlain_pieces (pieces : List Piece) : ∀ l ∈ pieces.map Piece.lexeme, l.isPlain = true := by
  intro l hl
  obtain ⟨p, -, rfl⟩ := List.mem_map.mp hl
  cases p <;> rfl

theorem isPlain_lexemes (h : ∀ t ∈ ts, t.IsPlain) : ∀ l ∈ ts.flatMap lexemes, l.isPlain = true := by
  intro l hl
  obtain ⟨t, ht, hl⟩ := List.mem_flatMap.mp hl
  rcases List.mem_append.mp hl with hl | hl
  · exact isPlain_pieces _ l hl
  · obtain rfl := List.mem_singleton.mp hl
    rcases h t ht with hkind | ⟨hkind, htext | htext⟩
    · rw [hkind]
      rfl
    · rw [hkind, htext]
      rfl
    · rw [hkind, htext]
      rfl

/-- **Where tokens begin** behind a semicolon or a brace and some plain tokens, the text is cut as it is alone. -/
theorem exists_cut (h : ofChars cs = before ++ (lead ++ (ts ++ us))) (hended : Ended before)
    (hbroken : ∀ t ∈ before, t.isBroken = false) (hlead : ∀ t ∈ lead, t.IsPlain) (hne : ts ≠ []) :
    ∃ cs' rest, cut [] 0 cs' = (headless ts).flatMap lexemes ++ rest := by
  obtain ⟨front, cs', -, hbehind, -⟩ := exists_front h hended hbroken
  obtain ⟨tail, htail⟩ := exists_lexemes front.length [] (cut [] 0 cs')
  obtain ⟨t, ts, rfl⟩ := List.exists_cons_of_ne_nil hne
  rw [List.reverse_nil, List.map_nil, List.nil_append, ← behind, ← hbehind, List.flatMap_append, List.flatMap_append,
    flatMap_lexemes_cons, List.append_assoc, List.append_assoc, List.append_assoc, ← List.append_assoc] at htail
  have hplain : ∀ l ∈ lead.flatMap lexemes ++ t.gap.map Piece.lexeme, l.isPlain = true :=
    List.forall_mem_append.mpr ⟨isPlain_lexemes hlead, isPlain_pieces _⟩
  exact ⟨_, _, (cut_behind_plain htail hplain).2⟩

/-- What begins as identifiers do behind a semicolon or a brace is a word. -/
theorem kind_eq_word (h : ofChars cs = before ++ t :: us) (hended : Ended before)
    (hbroken : ∀ t ∈ before, t.isBroken = false) {c : Char} {text : List Char} (ht : t.text.toList = c :: text)
    (hc : isIdentifierStart c = true) : t.kind = .word := by
  have hsplit : ofChars cs = before ++ ([] ++ (t :: us ++ [])) := by simpa using h
  obtain ⟨cs', rest, hcut⟩ := exists_cut hsplit hended hbroken (fun _ hu => absurd hu List.not_mem_nil)
    (List.cons_ne_nil _ _)
  rw [lexemes_headless, ht] at hcut
  obtain ⟨d, ds, k, around, rfl, hnext, htext, -⟩ := exists_of_cut hcut
  obtain ⟨rfl, -⟩ := List.cons.inj htext
  have hplain : c ≠ '@' ∧ c ≠ '\\' := by
    constructor <;> rintro rfl <;> exact absurd hc (by decide)
  have hword : Scan.word? (c :: ds) = some (Scan.wordRest 0 ds + 1) := by
    rw [Scan.word?_of_ne hplain.1, Scan.plainWord?_of_ne hplain.2, if_pos hc]
  exact Shape.token.inj (Prod.mk.inj (hnext.symm.trans (next_word hword))).1

/-- The lexemes of tokens are tokens but for the pieces of the gaps. -/
theorem kinds_lexemes (ts : List Token) : kinds (ts.flatMap lexemes) = ts.map kind := by
  have hpieces (pieces : List Piece) : kinds (pieces.map Piece.lexeme) = [] :=
    List.filterMap_eq_nil_iff.mpr fun l hl => by
      obtain ⟨p, -, rfl⟩ := List.mem_map.mp hl
      cases p <;> rfl
  induction ts with
  | nil => rfl
  | cons t ts ih =>
      unfold kinds at hpieces ih ⊢
      rw [List.flatMap_cons, List.filterMap_append, ih, lexemes, List.filterMap_append, hpieces]
      rfl

theorem map_kind_headless (ts : List Token) : (headless ts).map kind = ts.map kind := by
  cases ts <;> rfl

/-- The last lexeme of tokens is a token. -/
theorem isSome_kind?_of_mem_getLast? (ts : List Token) :
    ∀ l ∈ (ts.flatMap lexemes).getLast?, l.shape.kind?.isSome = true := by
  rcases ts.eq_nil_or_concat with rfl | ⟨ts, t, rfl⟩
  · simp
  · intro l hl
    rw [List.concat_eq_append, List.flatMap_append, List.flatMap_singleton, lexemes, ← List.append_assoc,
      List.getLast?_concat] at hl
    obtain rfl := Option.some.inj hl
    rfl

/-- The lexemes of some tokens up to one that is not the first of its gap. -/
theorem exists_headless_append (front back : List Token) (t : Token) :
    ∃ ls, (headless (front ++ t :: back)).flatMap lexemes =
        ls ++ ⟨.token t.kind, t.text.toList⟩ :: back.flatMap lexemes ∧ kinds ls = front.map kind := by
  have hkinds (ls : List Lexeme) (h : (headless (front ++ [t])).flatMap lexemes = ls ++ [⟨.token t.kind, t.text.toList⟩]) :
      kinds ls = front.map kind := by
    have hall := kinds_lexemes (headless (front ++ [t]))
    rw [h, map_kind_headless, List.map_append, kinds, List.filterMap_append] at hall
    exact List.append_cancel_right hall
  cases front with
  | nil => exact ⟨[], lexemes_headless t back, rfl⟩
  | cons u front =>
      refine ⟨⟨.token u.kind, u.text.toList⟩ :: (front.flatMap lexemes ++ t.gap.map Piece.lexeme), ?_, hkinds _ ?_⟩
      · rw [List.cons_append, lexemes_headless, List.flatMap_append, flatMap_lexemes_cons, lexemes_headless]
        simp
      · rw [List.cons_append, lexemes_headless, List.flatMap_append, flatMap_lexemes_cons, lexemes_headless]
        simp

theorem kind_eq_mark_of_isText (ht : t ∈ ofChars cs) {m : String} (hm : m.toList.head?.any Scan.beginsWord = false)
    (h : t.isText m = true) : t.kind = .mark ∧ t.text = m := by
  obtain ⟨hkind | hkind, htext⟩ : (t.kind = .word ∨ t.kind = .mark) ∧ t.text = m := by simpa [isText] using h
  · exact absurd htext (text_ne_of_not_beginsWord ht hkind hm)
  · exact ⟨hkind, htext⟩

/-- **Plain tokens are spelled** as they are written. -/
theorem spells_of_isPlain (h : cut [] 0 cs = (headless ts).flatMap lexemes ++ rest) (hplain : ∀ t ∈ ts, t.IsPlain) :
    Spells (verbatim ts).toList (headless ts) := by
  have hheadless : ∀ t ∈ headless ts, t.IsPlain := by
    cases ts with
    | nil => exact hplain
    | cons t ts =>
        obtain ⟨ht, hts⟩ := List.forall_mem_cons.mp hplain
        exact List.forall_mem_cons.mpr ⟨ht, hts⟩
  refine spells_of_cut fun new hnew => ?_
  rw [← chars_headless]
  exact cut_plain h (isPlain_lexemes hheadless) (isSome_kind?_of_mem_getLast? _) hnew

/-- **Tokens are spelled** as they are written up to a semicolon or a closing angle bracket outside of strings, and with
plain tokens behind it. -/
theorem spells_of_stop (h : cut [] 0 cs = (headless (front ++ t :: back)).flatMap lexemes ++ rest)
    (ht : t.kind = .mark ∧ (t.text = ";" ∨ t.text = ">"))
    (hquotes : Tree.openedQuotes (front ++ t :: back) ≤ Tree.closedQuotes (front ++ t :: back))
    (hbroken : ∀ u ∈ front, u.isBroken = false) (hplain : ∀ u ∈ back, u.IsPlain) :
    Spells (verbatim (front ++ t :: back)).toList (headless (front ++ t :: back)) := by
  obtain ⟨ls, hls, hkinds⟩ := exists_headless_append front back t
  obtain ⟨d, hd, htext⟩ : ∃ d, (d = ';' ∨ d = '>') ∧ t.text.toList = [d] := by
    rcases ht.2 with htext | htext
    · exact ⟨';', .inl rfl, by rw [htext]; rfl⟩
    · exact ⟨'>', .inr rfl, by rw [htext]; rfl⟩
  have hstop : d ∈ Text.stops := by rcases hd with rfl | rfl <;> decide
  rw [hls, ht.1, htext, List.append_assoc, List.cons_append] at h
  have hunbroken := unbroken_of_kinds (fun _ hk => hkinds ▸ hk) hbroken
  have hquotesBehind : ∀ k ∈ (t :: back).map Token.kind, k ≠ .openingQuote ∧ k ≠ .closingQuote := by
    have hkind : ∀ u ∈ t :: back, u.kind = .word ∨ u.kind = .mark :=
      List.forall_mem_cons.mpr ⟨.inr ht.1, fun u hu => (hplain u hu).imp_right And.left⟩
    intro k hk
    obtain ⟨u, hu, rfl⟩ := List.mem_map.mp hk
    rcases hkind u hu with hword | hmark
    · simp [hword]
    · simp [hmark]
  have hclosed := opened_le_closed_of_quotes (by rw [hkinds, List.map_append]) hquotesBehind hquotes
  obtain ⟨-, hrest, hmore⟩ := cut_front hstop .nil h hunbroken hclosed
  refine spells_of_cut fun new hnew => ?_
  have hback := cut_plain hrest (isPlain_lexemes hplain) (isSome_kind?_of_mem_getLast? back) hnew
  have hfirst : first d (chars (back.flatMap lexemes) ++ new) = (.token .mark, 0) := by
    rcases hd with rfl | rfl
    · exact first_border rfl _
    · refine first_angle fun hhead => ?_
      cases hlexemes : back.flatMap lexemes with
      | nil =>
          rw [hlexemes] at hhead
          exact absurd (hnew _ hhead) (by decide)
      | cons l lexemes =>
          have hl : l.isPlain = true := isPlain_lexemes hplain l (hlexemes ▸ List.mem_cons_self)
          rw [hlexemes] at hback hhead
          exact (beginsPlain_of_cut hback hl _ hhead).1.2 rfl
  have hchars : chars (ls ++ ⟨.token .mark, [d]⟩ :: back.flatMap lexemes) ++ new =
      chars ls ++ d :: (chars (back.flatMap lexemes) ++ new) := by
    rw [chars_append, chars_cons, List.append_assoc]
    rfl
  rw [← chars_headless, hls, ht.1, htext, hchars, hmore _ hfirst, hback, List.append_assoc]
  rfl

/-- Tokens with nothing but plain tokens behind the last semicolon or closing angle bracket. -/
def Settled (ts : List Token) : Prop :=
  ∃ front back, ts = front ++ back ∧ (∀ t ∈ front.getLast?, t.isText ";" = true ∨ t.isText ">" = true) ∧
    ∀ t ∈ back, t.IsPlain

/-- **Settled tokens of a text are spelled** as they are written, if in front of them there are a semicolon or a brace
and some plain tokens. -/
theorem spells_of_settled (h : ofChars cs = before ++ (lead ++ (ts ++ us))) (hended : Ended before)
    (hbefore : ∀ t ∈ before, t.isBroken = false) (hlead : ∀ t ∈ lead, t.IsPlain)
    (hquotes : Tree.openedQuotes ts ≤ Tree.closedQuotes ts) (hbroken : ∀ t ∈ ts, t.isBroken = false)
    (hsettled : Settled ts) : Spells (verbatim ts).toList (headless ts) := by
  by_cases hne : ts = []
  · subst hne
    exact fun start new _ => ⟨[], .nil, rfl⟩
  · obtain ⟨cs', rest, hcut⟩ := exists_cut h hended hbefore hlead hne
    obtain ⟨front, back, rfl, hstop, hplain⟩ := hsettled
    rcases front.eq_nil_or_concat with rfl | ⟨front, t, rfl⟩
    · exact spells_of_isPlain hcut hplain
    · rw [List.concat_eq_append] at *
      have hmem : t ∈ ofChars cs := by simp [h]
      have hmark {m : String} (hm : m.toList.head?.any Scan.beginsWord = false) (htext : t.isText m = true) :=
        kind_eq_mark_of_isText hmem hm htext
      have ht : t.kind = .mark ∧ (t.text = ";" ∨ t.text = ">") := by
        rcases hstop t List.getLast?_concat with htext | htext
        · exact ⟨(hmark (by decide) htext).1, .inl (hmark (by decide) htext).2⟩
        · exact ⟨(hmark (by decide) htext).1, .inr (hmark (by decide) htext).2⟩
      rw [List.append_assoc, List.singleton_append] at hcut hquotes hbroken ⊢
      exact spells_of_stop hcut ht hquotes (fun u hu => hbroken u (List.mem_append_left _ hu)) hplain

end Token

end InteropStubs
