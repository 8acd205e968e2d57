import InteropStubs.Proofs.Token.Twin

/-!
# Tokens of a block around a text

A text that ends outside of strings may stand in a namespace: in front of it the keyword, a dotted name and an
opening brace, behind it a closing brace, and line breaks between. The tokens are those of the header, of the text
and of the closing brace (`Token.exists_block`).
-/

namespace InteropStubs.Token

open Lexeme Scan Text

variable {names : List String} {name ts us vs : List Token} {cs rest : List Char}

/-! ### Names -/

/-- The tokens of a dotted name that is written without gaps. -/
inductive Dotted : List String → List Token → Prop
  | one {w : String} {t : Token} (ht : t.kind = .word ∧ t.text = w) : Dotted [w] [t]
  | more {w : String} {t point u : Token} {names : List String} {name : List Token}
      (ht : t.kind = .word ∧ t.text = w) (hpoint : point.kind = .mark ∧ point.text = ".")
      (hgaps : point.gap = [] ∧ u.gap = []) (h : Dotted names (u :: name)) :
      Dotted (w :: names) (t :: point :: u :: name)

namespace Dotted

/-- A dotted name is made of words and points. -/
theorem kinds (h : Dotted names name) : ∀ t ∈ name, t.kind = .word ∨ t.kind = .mark ∧ t.text = "." := by
  induction h with
  | one ht => exact fun t hmem => List.mem_singleton.mp hmem ▸ .inl ht.1
  | more ht hpoint _ _ ih =>
      exact List.forall_mem_cons.mpr ⟨.inl ht.1, List.forall_mem_cons.mpr ⟨.inr hpoint, ih⟩⟩

theorem verbatim (h : Dotted names name) : Token.verbatim name = ".".intercalate names := by
  induction h with
  | one ht => simp [Token.verbatim, ht]
  | @more w t point u names name ht hpoint hgaps h ih =>
      obtain ⟨v, names, rfl⟩ : ∃ v names', names = v :: names' := by cases h <;> exact ⟨_, _, rfl⟩
      rw [String.intercalate_cons_cons, ← ih]
      simp [Token.verbatim, Token.gapText, ht, hpoint, hgaps, String.append_assoc]

end Dotted

theorem ofLexemes_token (start : Nat) (gap : List Piece) (kind : Token.Kind) (text : List Char)
    (lexemes : List Lexeme) : ofLexemes start gap (⟨.token kind, text⟩ :: lexemes) =
      ⟨kind, gap.reverse, String.ofList text, start, Lexeme.trail 0 0 lexemes⟩ ::
        ofLexemes (start + text.length) [] lexemes :=
  rfl

/-- How dotted names begin. -/
theorem head_of_dotted {w : String} {names : List String} (hw : word? w.toList = some w.length) {c : Char}
    (hc : c ∈ ((".".intercalate (w :: names)).toList ++ rest).head?) : isBlank c = false ∧ isQuiet c = true := by
  obtain ⟨back, hback⟩ : ∃ back, ".".intercalate (w :: names) = w ++ back := by
    cases names with
    | nil => exact ⟨"", by simp⟩
    | cons v names => exact ⟨_, by rw [String.intercalate_cons_cons, String.append_assoc]⟩
  rw [hback, String.toList_append] at hc
  cases htext : w.toList with
  | nil => exact absurd hw (by rw [htext]; exact nofun)
  | cons d ds =>
      rw [htext] at hw hc
      obtain rfl := Option.some.inj hc
      exact ⟨(head_of_word? hw).1, (head_of_word? hw).2.1⟩

/-- **A dotted name** is cut into its words and points. -/
theorem exists_dotted (hne : names ≠ []) (hnames : ∀ w ∈ names, word? w.toList = some w.length)
    (hrest : ∀ c ∈ rest.head?, endsWord c = true) (start : Nat) (gap : List Piece) :
    ∃ t name stop, Dotted names (t :: name) ∧ t.gap = gap.reverse ∧
      ofLexemes start gap (Lexeme.cut [] 0 ((".".intercalate names).toList ++ rest)) =
        t :: name ++ behind stop rest := by
  induction names generalizing start gap with
  | nil => exact absurd rfl hne
  | cons w names ih =>
      obtain ⟨hw, hnames⟩ := List.forall_mem_cons.mp hnames
      have hword : word? w.toList = some w.toList.length := by rw [hw, String.length_toList]
      have hdotted (start : Nat) (gap : List Piece) (lexemes : List Lexeme) :
          ofLexemes start gap (⟨.token .word, w.toList⟩ :: lexemes) =
            ⟨.word, gap.reverse, w, start, Lexeme.trail 0 0 lexemes⟩ :: ofLexemes (start + w.length) [] lexemes := by
        rw [ofLexemes_token, String.ofList_toList, String.length_toList]
      cases names with
      | nil =>
          rw [String.intercalate_singleton, cut_word hword hrest, hdotted]
          exact ⟨_, [], _, .one ⟨rfl, rfl⟩, rfl, rfl⟩
      | cons v names =>
          have hpoint : ∀ c ∈ ('.' :: ((".".intercalate (v :: names)).toList ++ rest)).head?, endsWord c = true := by
            intro c hc
            obtain rfl := Option.some.inj hc
            decide
          have hquiet : ∀ c ∈ ((".".intercalate (v :: names)).toList ++ rest).head?, isQuiet c = true :=
            fun c hc => (head_of_dotted (hnames v List.mem_cons_self) hc).2
          have hchars : (".".intercalate (w :: v :: names)).toList ++ rest =
              w.toList ++ '.' :: ((".".intercalate (v :: names)).toList ++ rest) := by
            rw [String.intercalate_cons_cons, String.toList_append, String.toList_append]
            simp
          rw [hchars, cut_word hword hpoint, hdotted, cut_mark (by decide) hquiet, ofLexemes_token]
          obtain ⟨t, name, stop, hname, hgap, htokens⟩ :=
            ih (List.cons_ne_nil _ _) hnames (start + w.length + 1) []
          rw [List.length_singleton, htokens]
          exact ⟨_, _ :: t :: name, stop, .more ⟨rfl, rfl⟩ ⟨rfl, rfl⟩ ⟨rfl, hgap⟩ hname, rfl, rfl⟩

/-! ### Blocks -/

theorem forall_mem_head?_cons {P : Char → Prop} {c : Char} (hc : P c) (cs : List Char) :
    ∀ d ∈ (c :: cs).head?, P d :=
  fun _ hd => Option.some.inj hd ▸ hc

/-- A single blank goes into the gap of what follows. -/
theorem ofLexemes_blank {c : Char} (hc : isBlank c = true) (hrest : ∀ d ∈ rest.head?, isBlank d = false)
    (start : Nat) (gap : List Piece) : ofLexemes start gap (Lexeme.cut [] 0 (c :: rest)) =
      ofLexemes (start + 1) (.blank (String.ofList [c]) :: gap) (Lexeme.cut [] 0 rest) := by
  have hcut := cut_blanks (List.cons_ne_nil c []) (fun d hd => List.mem_singleton.mp hd ▸ hc) hrest
  rw [List.singleton_append] at hcut
  rw [hcut]
  rfl

/-- The header of a namespace, up to its opening brace. -/
theorem exists_header (hne : names ≠ []) (hnames : ∀ w ∈ names, word? w.toList = some w.length)
    (rest : List Char) :
    ∃ word name opening stop,
      ofChars ("namespace".toList ++ ' ' :: ((".".intercalate names).toList ++ '\n' :: '{' :: '\n' :: rest)) =
        word :: (name ++ opening :: behind stop ('\n' :: rest)) ∧
      (word.kind = .word ∧ word.text = "namespace") ∧ Dotted names name ∧
      opening.kind = .mark ∧ opening.text = openBrace := by
  have hblank : isBlank ' ' = true ∧ isBlank '\n' = true ∧ isBlank '{' = false := by decide
  have hkeyword : word? "namespace".toList = some "namespace".toList.length := by decide
  have hends : endsWord ' ' = true ∧ endsWord '\n' = true := by decide
  obtain ⟨w, names, rfl⟩ := List.exists_cons_of_ne_nil hne
  have hfirst : ∀ c ∈ ((".".intercalate (w :: names)).toList ++ '\n' :: '{' :: '\n' :: rest).head?,
      isBlank c = false := fun c hc => (head_of_dotted (hnames w List.mem_cons_self) hc).1
  obtain ⟨t, name, stop, hname, -, htokens⟩ := exists_dotted hne hnames
    (forall_mem_head?_cons hends.2 ('{' :: '\n' :: rest)) (0 + "namespace".toList.length + 1)
    [.blank (String.ofList [' '])]
  rw [ofChars, Lexeme.ofChars, cut_word hkeyword (forall_mem_head?_cons hends.1 _), ofLexemes_token,
    ofLexemes_blank hblank.1 hfirst, htokens, behind, ofLexemes_blank hblank.2.1 (forall_mem_head?_cons hblank.2.2 _),
    cut_mark (by decide) (forall_mem_head?_cons (isQuiet_of_isBlank hblank.2.1) rest), ofLexemes_token]
  exact ⟨_, t :: name, _, _, rfl, ⟨rfl, rfl⟩, hname, rfl, rfl⟩

theorem kin_trans (h : List.Forall₂ Kin ts us) (h' : List.Forall₂ Kin us vs) :
    List.Forall₂ Kin ts vs := by
  induction h generalizing vs with
  | nil => exact h'
  | cons hkin _ ih =>
      cases h' with
      | cons hkin' h' => exact .cons (hkin.trans hkin') (ih h')

/-- What has the tokens of one list and of another one behind it. -/
theorem exists_of_kin_append (h : List.Forall₂ Kin (headless (ts ++ us)) (headless vs)) :
    ∃ ts' us', vs = ts' ++ us' ∧ List.Forall₂ Kin (headless ts) (headless ts') ∧
      List.Forall₂ Kin (headless us) (headless us') := by
  cases ts with
  | nil => exact ⟨[], vs, rfl, .nil, h⟩
  | cons t ts =>
      cases vs with
      | nil => exact absurd (List.forall₂_nil_right_iff.mp h) (by simp [headless])
      | cons v vs =>
          obtain ⟨hkin, hrest⟩ := List.forall₂_cons.mp h
          have hfront := (List.forall₂_take_append vs ts us hrest.flip).flip
          have hback := (List.forall₂_drop_append vs ts us hrest.flip).flip
          exact ⟨v :: vs.take ts.length, vs.drop ts.length, by simp, .cons hkin hfront, kin_headless hback⟩

/-- What ends with one more token, whatever is in front of it. -/
theorem exists_last {t : Token} (h : List.Forall₂ Kin (headless (ts ++ [t])) (headless us)) :
    ∃ us' t', us = us' ++ [t'] ∧ List.Forall₂ Kin (headless ts) (headless us') ∧
      t'.kind = t.kind ∧ t'.text = t.text := by
  obtain ⟨us', last, rfl, hus, hlast⟩ := exists_of_kin_append h
  cases last with
  | nil => exact absurd (List.forall₂_nil_right_iff.mp hlast) (by simp [headless])
  | cons t' more =>
      obtain ⟨hkin, hnil⟩ := List.forall₂_cons.mp hlast
      obtain rfl := List.forall₂_nil_left_iff.mp hnil
      exact ⟨us', t', rfl, hus, hkin.kind, hkin.text⟩

/-- **Tokens of a block around a text.** -/
theorem exists_block (hne : names ≠ []) (hnames : ∀ w ∈ names, word? w.toList = some w.length)
    (hended : Ended (ofChars cs)) (hbroken : ∀ t ∈ ofChars cs, t.isBroken = false) :
    ∃ word name opening us closing,
      ofChars ("namespace".toList ++ ' ' :: ((".".intercalate names).toList ++
        '\n' :: '{' :: '\n' :: (cs ++ ['\n', '}']))) = word :: (name ++ opening :: (us ++ [closing])) ∧
      (word.kind = .word ∧ word.text = "namespace") ∧ Dotted names name ∧
      (opening.kind = .mark ∧ opening.text = openBrace) ∧ List.Forall₂ Kin (headless (ofChars cs)) (headless us) ∧
      closing.kind = .mark ∧ closing.text = closeBrace := by
  obtain ⟨word, name, opening, stop, hheader, hword, hname, hopening⟩ :=
    exists_header hne hnames (cs ++ ['\n', '}'])
  have hempty : Ended (ofChars []) := .nil
  have hbrace : ofChars ['}'] = [⟨.mark, [], closeBrace, 0, 0⟩] := by decide
  obtain ⟨ts, back, hts, hkin, hback⟩ := exists_below hended hbroken 0 ['}']
  rw [hbrace, ← List.nil_append [_]] at hback
  obtain ⟨before, t, rfl, hbefore, hkind, htext⟩ := exists_last hback
  obtain rfl : before = [] := headless_eq_nil_iff.mp (List.forall₂_nil_left_iff.mp hbefore)
  obtain ⟨front, vs, hvs, hfront, hall⟩ := exists_below hempty nofun stop (cs ++ ['\n', '}'])
  obtain rfl : front = [] := List.forall₂_nil_left_iff.mp hfront
  rw [← behind_zero, hts] at hall
  obtain ⟨us, closing, rfl, hus, hkind', htext'⟩ := exists_last hall
  rw [List.nil_append, List.nil_append] at hvs
  rw [hvs] at hheader
  exact ⟨word, name, opening, us, closing, hheader, hword, hname, hopening,
    kin_trans (kin_headless hkin) hus, hkind'.trans hkind, htext'.trans htext⟩

end InteropStubs.Token
