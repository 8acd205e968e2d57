import InteropStubs.Proofs.Token.Agree
import Mathlib.Tactic.ByContra

/-!
# What does not depend on the rest

A comment, a literal or a directive may go over stops. But if it ends in front of the stop up to which two
texts agree, it is read of both of them alike. So it is with every lexeme that is not broken
(`Lexeme.next_settle`).
-/

namespace InteropStubs

open Text Scan

namespace Scan

variable {n k : Nat} {cs ds : List Char} {p : Char → Bool}

/-- Characters that are counted in front of the border are counted alike. -/
theorem countWhile_settle (h : Agree n cs ds) (hle : countWhile p cs ≤ n) : countWhile p ds = countWhile p cs := by
  induction h with
  | @stop d hd =>
      cases hp : p d with
      | false => simp [countWhile, hp]
      | true => simp [countWhile, hp] at hle
  | cons c h ih =>
      simp only [countWhile, List.takeWhile_cons] at hle ih ⊢
      split
      · next hc =>
        rw [if_pos hc] at hle
        exact congrArg (· + 1) (ih (Nat.le_of_succ_le_succ hle))
      · rfl

/-! ### Comments and gaps -/

/-- A block comment one character further on. -/
theorem blockRest?_cons (c : Char) (cs : List Char) :
    blockRest? (c :: cs) =
      if c = '*' ∧ cs.head? = some '/' then some 2 else (blockRest? cs).map (· + 1) := by
  cases cs with
  | nil =>
      rw [if_neg (by simp), blockRest?.eq_3 c []]
      exact fun _ _ => nofun
  | cons d cs =>
      by_cases h : c = '*' ∧ d = '/'
      · rw [h.1, h.2]
        rfl
      · rw [if_neg (by simpa using h), blockRest?]
        rintro rest rfl heq
        exact h ⟨rfl, (List.cons.inj heq).1⟩

/-- A block comment that ends in front of the border is the same one. -/
theorem blockRest?_settle (h : Agree n cs ds) (hr : blockRest? cs = some k) (hle : k ≤ n) :
    blockRest? ds = some k := by
  induction h generalizing k with
  | stop =>
      rw [blockRest?_cons] at hr
      split at hr
      · have := Option.some.inj hr
        omega
      · obtain ⟨m, -, rfl⟩ := Option.map_eq_some_iff.mp hr
        omega
  | @cons c _ cs _ h ih =>
      rw [blockRest?_cons] at hr ⊢
      rw [← h.head?_eq]
      by_cases hend : c = '*' ∧ cs.head? = some '/'
      · rwa [if_pos hend] at hr ⊢
      · rw [if_neg hend] at hr
        obtain ⟨m, hm, rfl⟩ := Option.map_eq_some_iff.mp hr
        rw [if_neg hend, ih hm (Nat.le_of_succ_le_succ hle), Option.map_some]

/-- Whether a comment begins here, closed or not. -/
def beginsComment (cs : List Char) : Bool :=
  ['/', '/'].isPrefixOf cs || ['/', '*'].isPrefixOf cs

/-- Comments begin alike. -/
theorem beginsComment_agree (h : Agree n cs ds) : beginsComment cs = beginsComment ds := by
  rw [beginsComment, beginsComment, h.isPrefixOf_eq (by decide), h.isPrefixOf_eq (by decide)]

theorem comment?_of_not_begins (h : beginsComment cs = false) : comment? cs = none := by
  unfold comment?
  split
  · simp [beginsComment] at h
  · simp [beginsComment] at h
  · rfl

/-- Where a comment begins but there is none, a block comment is not closed. -/
theorem not_begins_of_comment? (h : comment? cs = none) (hopen : ['/', '*'].isPrefixOf cs = false) :
    beginsComment cs = false := by
  rw [beginsComment, hopen, Bool.or_false, Bool.eq_false_iff]
  intro hline
  obtain ⟨rest, rfl⟩ := List.isPrefixOf_iff_prefix.mp hline
  exact absurd h nofun

/-- A comment that ends in front of the border is the same one. -/
theorem comment?_settle (h : Agree n cs ds) (hc : comment? cs = some k) (hle : k ≤ n) : comment? ds = some k := by
  have hbegins : beginsComment cs = true := by
    by_contra hnot
    rw [Bool.not_eq_true] at hnot
    rw [comment?_of_not_begins hnot] at hc
    exact absurd hc nofun
  rcases Bool.or_eq_true_iff.mp hbegins with hline | hblock
  · obtain ⟨rest, rfl⟩ := List.isPrefixOf_iff_prefix.mp hline
    obtain rfl := Option.some.inj hc
    cases h with
    | stop hd => exact absurd hd (by decide)
    | cons _ h => cases h with
      | stop hd => exact absurd hd (by decide)
      | cons _ h => exact congrArg (fun k => some (k + 2)) (countWhile_settle h (by omega))
  · obtain ⟨rest, rfl⟩ := List.isPrefixOf_iff_prefix.mp hblock
    obtain ⟨m, hm, rfl⟩ := Option.map_eq_some_iff.mp hc
    cases h with
    | stop hd => exact absurd hd (by decide)
    | cons _ h => cases h with
      | stop hd => exact absurd hd (by decide)
      | cons _ h => exact congrArg (Option.map (· + 2)) (blockRest?_settle h hm (by omega))

theorem two_le_of_comment? (h : comment? cs = some k) : 2 ≤ k := by
  unfold comment? at h
  split at h
  · have := Option.some.inj h
    omega
  · obtain ⟨m, -, rfl⟩ := Option.map_eq_some_iff.mp h
    omega
  · exact absurd h nofun

/-- A gap that ends in front of the stop, and not in front of a comment that is not closed. -/
theorem gapOf_settle {b b' : Nat} (h : Agree n cs ds) (hb : cs.length ≤ b) (hb' : ds.length ≤ b')
    (hle : (gapOf p b cs).size ≤ n) (hopen : ['/', '*'].isPrefixOf (cs.drop (gapOf p b cs).size) = false) :
    gapOf p b' ds = gapOf p b cs := by
  induction b generalizing b' n cs ds with
  | zero => exact absurd h.lt_length (by omega)
  | succ b ih =>
      obtain ⟨c, cs, rfl⟩ := List.exists_cons_of_length_pos (Nat.zero_lt_of_lt h.lt_length)
      obtain ⟨_, ds, rfl⟩ := List.exists_cons_of_length_pos (Nat.zero_lt_of_lt h.symm.lt_length)
      obtain rfl := Option.some.inj h.head?_eq
      obtain ⟨b', rfl⟩ : ∃ m, b' = m + 1 := Nat.exists_eq_add_one.mpr (Nat.zero_lt_of_lt hb')
      rw [gapOf] at hle hopen
      rw [gapOf, gapOf]
      split
      · next hc =>
        rw [if_pos hc] at hle hopen
        cases h with
        | stop hd => exact absurd hle (Nat.not_succ_le_zero _)
        | cons _ h =>
            rw [ih h (Nat.le_of_succ_le_succ hb) (Nat.le_of_succ_le_succ hb') (Nat.le_of_succ_le_succ hle) hopen]
      · next hc =>
        rw [if_neg hc] at hle hopen
        cases hcomment : comment? (c :: cs) with
        | none =>
            -- Not even a comment that is not closed begins here: `hopen` rules that out.
            simp only [hcomment, List.drop_zero] at hopen
            have hnone := not_begins_of_comment? hcomment hopen
            rw [beginsComment_agree h] at hnone
            rw [comment?_of_not_begins hnone]
        | some k =>
            simp only [hcomment] at hle hopen
            have htwo := two_le_of_comment? hcomment
            have hsize : k ≤ n := Nat.le_trans (Nat.le_add_left ..) hle
            simp only [comment?_settle h hcomment hsize]
            rw [Nat.add_comm, ← List.drop_drop] at hopen
            rw [ih (h.drop hsize) (by simp at hb ⊢; omega) (by simp at hb' ⊢; omega) (by omega) hopen]

/-- A gap that ends in front of the border is the same one, if no comment is open behind it. -/
theorem gap_settle (h : Agree n cs ds) (hle : (gap cs).size ≤ n)
    (hopen : ['/', '*'].isPrefixOf (cs.drop (gap cs).size) = false) : gap ds = gap cs :=
  gapOf_settle h (Nat.le_refl _) (Nat.le_refl _) hle hopen

/-- So is a gap within a line. -/
theorem gapInLine_settle (h : Agree n cs ds) (hle : (gapInLine cs).size ≤ n)
    (hopen : ['/', '*'].isPrefixOf (cs.drop (gapInLine cs).size) = false) : gapInLine ds = gapInLine cs :=
  gapOf_settle h (Nat.le_refl _) (Nat.le_refl _) hle hopen

/-- What begins with another character opens no comment. -/
theorem not_opens_of_head? {c : Char} (h : cs.head? = some c) (hc : c ≠ '/') :
    ['/', '*'].isPrefixOf cs = false := by
  cases cs with
  | nil => rfl
  | cons d cs =>
      obtain rfl := Option.some.inj h
      have hne : ('/' == d) = false := beq_eq_false_iff_ne.mpr hc.symm
      simp [List.isPrefixOf, hne]

/-! ### Literals -/

/-- The character in a character literal. -/
def characterValue? : List Char → Option Nat
  | '\\' :: rest => (escape? rest).map (· + 1)
  | c :: _ => if c == '\x27' then none else some 1
  | [] => none

/-- A character literal by its value and the quote behind it. -/
theorem characterRest?_eq (cs : List Char) :
    characterRest? cs = (characterValue? cs).bind fun size =>
      let blank := (gap (cs.drop size)).size
      if (cs.drop (size + blank)).head? == some '\x27' then some (size + blank + 1) else none :=
  rfl

/-- The value of a character literal is the same one. -/
theorem characterValue?_agree (h : Agree n cs ds) : characterValue? cs = characterValue? ds := by
  have hplain {c : Char} (hc : c ≠ '\\') (cs : List Char) :
      characterValue? (c :: cs) = if c == '\x27' then none else some 1 := by
    rw [characterValue?]
    exact hc
  cases h with
  | @stop d hd =>
      have hne : ∀ d ∈ stops, d ≠ '\\' := forall_mem_stops.mpr (by decide)
      rw [hplain (hne d hd), hplain (hne d hd)]
  | cons c h =>
      by_cases hc : c = '\\'
      · subst hc
        rw [characterValue?, characterValue?, (escape?_agree h).1]
      · rw [hplain hc, hplain hc]

/-- A character literal that ends in front of the border is the same one. -/
theorem characterRest?_settle (h : Agree n cs ds) (hr : characterRest? cs = some k) (hle : k ≤ n) :
    characterRest? ds = some k := by
  rw [characterRest?_eq] at hr
  obtain ⟨size, hsize, hr⟩ := Option.bind_eq_some_iff.mp hr
  obtain ⟨hquote, hr⟩ := Option.ite_none_right_eq_some.mp hr
  obtain rfl := Option.some.inj hr
  have hclose : ((cs.drop size).drop (gap (cs.drop size)).size).head? = some '\x27' := by
    rw [List.drop_drop]
    exact eq_of_beq hquote
  have hdrop := h.drop (k := size) (by omega)
  have hgap := gap_settle hdrop (by omega) (not_opens_of_head? hclose (by decide))
  have hend := h.drop (k := size + (gap (cs.drop size)).size) (by omega)
  rw [characterRest?_eq, ← characterValue?_agree h, hsize, Option.bind_some]
  simp only [hgap, ← hend.head?_eq, hquote, if_true]

/-- A character that means nothing in a string is passed over. -/
theorem stringRest?_of_ne {c : Char} (hquote : c ≠ '"') (hbreak : c ≠ '\n') (hescape : c ≠ '\\')
    (cs : List Char) : stringRest? (c :: cs) = (stringRest? cs).map (· + 1) := by
  rw [stringRest?]
  · exact hquote
  · exact hbreak
  · exact fun _ _ heq => absurd heq hescape

theorem stringRest?_pos (h : stringRest? cs = some k) : 1 ≤ k := by
  unfold stringRest? at h
  split at h
  · exact absurd h nofun
  · exact Nat.le_of_eq (Option.some.inj h)
  · obtain ⟨-, h⟩ := Option.ite_none_right_eq_some.mp h
    have := Option.some.inj h
    omega
  all_goals
    obtain ⟨m, -, rfl⟩ := Option.map_eq_some_iff.mp h
    omega

/-- A string that ends in front of the border is the same one. -/
theorem stringRest?_settle (h : Agree n cs ds) (hr : stringRest? cs = some k) (hle : k ≤ n) :
    stringRest? ds = some k := by
  -- Strong induction, since an escape takes two characters at once.
  induction n using Nat.strongRecOn generalizing k cs ds with
  | ind n ih =>
      have hpos := stringRest?_pos hr
      cases h with
      | stop => omega
      | @cons c n cs ds h =>
          by_cases hquote : c = '"'
          · subst hquote
            exact hr
          by_cases hbreak : c = '\n'
          · subst hbreak
            rw [stringRest?] at hr ⊢
            obtain ⟨hclose, hr⟩ := Option.ite_none_right_eq_some.mp hr
            obtain rfl := Option.some.inj hr
            have hgap := gap_settle h (by omega) (not_opens_of_head? (eq_of_beq hclose) (by decide))
            have hend := h.drop (k := (gap cs).size) (by omega)
            simp only [hgap, ← hend.head?_eq, hclose, if_true]
          by_cases hescape : c = '\\'
          · subst hescape
            cases h with
            | stop =>
                rw [stringRest?] at hr
                obtain ⟨m, -, rfl⟩ := Option.map_eq_some_iff.mp hr
                omega
            | cons e h =>
                rw [stringRest?] at hr ⊢
                obtain ⟨m, hm, rfl⟩ := Option.map_eq_some_iff.mp hr
                rw [ih _ (by omega) h hm (by omega), Option.map_some]
          · rw [stringRest?_of_ne hquote hbreak hescape] at hr ⊢
            obtain ⟨m, hm, rfl⟩ := Option.map_eq_some_iff.mp hr
            rw [ih n (by omega) h hm (by omega), Option.map_some]

theorem verbatimRest?_of_ne {c : Char} (hquote : c ≠ '"') (cs : List Char) :
    verbatimRest? (c :: cs) = (verbatimRest? cs).map (· + 1) := by
  rw [verbatimRest?]
  · exact fun _ heq => absurd heq hquote
  · exact hquote

/-- A quote in a verbatim string ends it, unless it is doubled. -/
theorem verbatimRest?_quote (cs : List Char) :
    verbatimRest? ('"' :: cs) =
      if cs.head? = some '"' then (verbatimRest? cs.tail).map (· + 2) else some 1 := by
  cases cs with
  | nil => rfl
  | cons d cs =>
      by_cases hd : d = '"'
      · subst hd
        rfl
      · rw [verbatimRest?, if_neg (by simpa using hd)]
        simpa using hd

theorem verbatimRest?_pos (h : verbatimRest? cs = some k) : 1 ≤ k := by
  unfold verbatimRest? at h
  split at h
  · exact absurd h nofun
  · obtain ⟨m, -, rfl⟩ := Option.map_eq_some_iff.mp h
    omega
  · exact Nat.le_of_eq (Option.some.inj h)
  · obtain ⟨m, -, rfl⟩ := Option.map_eq_some_iff.mp h
    omega

/-- A verbatim string that ends in front of the border is the same one. -/
theorem verbatimRest?_settle (h : Agree n cs ds) (hr : verbatimRest? cs = some k) (hle : k ≤ n) :
    verbatimRest? ds = some k := by
  induction n using Nat.strongRecOn generalizing k cs ds with
  | ind n ih =>
      have hpos := verbatimRest?_pos hr
      cases h with
      | stop => omega
      | @cons c n cs ds h =>
          by_cases hquote : c = '"'
          · subst hquote
            rw [verbatimRest?_quote] at hr ⊢
            rw [← h.head?_eq]
            split at hr
            · next hhead =>
              obtain ⟨m, hm, rfl⟩ := Option.map_eq_some_iff.mp hr
              cases h with
              | stop => omega
              | cons e h =>
                  rw [if_pos hhead, List.tail_cons, ih _ (by omega) h hm (by omega), Option.map_some]
            · next hhead => rw [if_neg hhead, hr]
          · rw [verbatimRest?_of_ne hquote] at hr ⊢
            obtain ⟨m, hm, rfl⟩ := Option.map_eq_some_iff.mp hr
            rw [ih n (by omega) h hm (by omega), Option.map_some]

/-- A raw string one character further on: enough quotes in a row end it. -/
theorem rawRest?_cons (quotes run : Nat) (c : Char) (cs : List Char) :
    rawRest? quotes run (c :: cs) =
      if c = '"' then
        if run + 1 = quotes then some 1 else (rawRest? quotes (run + 1) cs).map (· + 1)
      else (rawRest? quotes 0 cs).map (· + 1) := by
  split
  · next hc =>
    subst hc
    rfl
  · next hc =>
    rw [rawRest?]
    exact hc

/-- A raw string that ends in front of the border is the same one. -/
theorem rawRest?_settle {quotes run : Nat} (h : Agree n cs ds) (hr : rawRest? quotes run cs = some k) (hle : k ≤ n) :
    rawRest? quotes run ds = some k := by
  induction h generalizing run k with
  | stop =>
      rw [rawRest?_cons] at hr
      split at hr
      · split at hr
        · have := Option.some.inj hr
          omega
        · obtain ⟨m, -, rfl⟩ := Option.map_eq_some_iff.mp hr
          omega
      · obtain ⟨m, -, rfl⟩ := Option.map_eq_some_iff.mp hr
        omega
  | cons c h ih =>
      rw [rawRest?_cons] at hr ⊢
      split at hr
      · next hc =>
        rw [if_pos hc]
        split at hr
        · next hend => rw [if_pos hend, hr]
        · next hend =>
          obtain ⟨m, hm, rfl⟩ := Option.map_eq_some_iff.mp hr
          rw [if_neg hend, ih hm (by omega), Option.map_some]
      · next hc =>
        obtain ⟨m, hm, rfl⟩ := Option.map_eq_some_iff.mp hr
        rw [if_neg hc, ih hm (by omega), Option.map_some]

/-- A literal ends alike if what is behind its opening does. -/
theorem literal_settle {lead : Nat} {rest? : List Char → Option Nat}
    (hrest : ∀ {n k : Nat} {cs ds : List Char}, Agree n cs ds → rest? cs = some k → k ≤ n → rest? ds = some k)
    (h : Agree n cs ds) (hr : literal cs lead rest? = some k) (hle : k ≤ n) : literal ds lead rest? = some k := by
  obtain ⟨size, hsize, rfl⟩ := Option.map_eq_some_iff.mp hr
  have hdrop := h.drop (k := lead) (by omega)
  have hend := h.drop (k := lead + size) (by omega)
  rw [literal, hrest hdrop hsize (by omega), Option.map_some, encodingMark_agree hend]

/-- Whether a string without holes begins here, closed or not. -/
def beginsString (cs : List Char) : Bool :=
  ['"'].isPrefixOf cs || ['@', '"'].isPrefixOf cs

/-- Strings begin alike. -/
theorem beginsString_agree (h : Agree n cs ds) : beginsString cs = beginsString ds := by
  rw [beginsString, beginsString, h.isPrefixOf_eq (by decide), h.isPrefixOf_eq (by decide)]

theorem string?_of_not_begins (h : beginsString cs = false) : string? cs = none := by
  unfold string?
  split
  · simp [beginsString] at h
  · simp [beginsString] at h
  · rfl

/-- A string that begins with a quote is raw if it begins with three of them. -/
theorem string?_quote (cs : List Char) :
    string? ('"' :: cs) =
      let quotes := countWhile (· == '"') ('"' :: cs)
      if 3 ≤ quotes then literal ('"' :: cs) quotes (rawRest? quotes 0)
      else (stringRest? cs).map fun size => size + 1 + encodingMark (cs.drop size) :=
  rfl

/-- **A string that ends in front of the border** is the same one. -/
theorem string?_settle (h : Agree n cs ds) (hs : string? cs = some k) (hle : k ≤ n) : string? ds = some k := by
  have hbegins : beginsString cs = true := by
    by_contra hnot
    rw [Bool.not_eq_true] at hnot
    rw [string?_of_not_begins hnot] at hs
    exact absurd hs nofun
  rcases Bool.or_eq_true_iff.mp hbegins with hquote | hverbatim
  · obtain ⟨rest, rfl⟩ := List.isPrefixOf_iff_prefix.mp hquote
    obtain ⟨hquotes, -⟩ := quotes_agree h
    cases h with
    | stop hd => exact absurd hd (by decide)
    | cons _ h' =>
        have h' : Agree _ rest _ := h'
        simp only [List.cons_append, List.nil_append, string?_quote] at hs hquotes ⊢
        rw [← hquotes]
        split at hs
        · next hraw =>
          rw [if_pos hraw]
          exact literal_settle rawRest?_settle (.cons _ h') hs hle
        · next hraw =>
          obtain ⟨size, hsize, rfl⟩ := Option.map_eq_some_iff.mp hs
          rw [if_neg hraw, stringRest?_settle h' hsize (by omega), Option.map_some,
            encodingMark_agree (h'.drop (k := size) (by omega))]
  · obtain ⟨rest, rfl⟩ := List.isPrefixOf_iff_prefix.mp hverbatim
    cases h with
    | stop hd => exact absurd hd (by decide)
    | cons _ h' => cases h' with
      | stop hd => exact absurd hd (by decide)
      | cons _ h' => exact literal_settle verbatimRest?_settle (.cons _ (.cons _ h')) hs hle

end Scan

/-! ### Strings with holes -/

namespace Lexeme

variable {n k : Nat} {cs ds : List Char} {isVerbatim : Bool}

/-- A raw string with holes that ends in front of the border is the same one. -/
theorem rawWithHoles?_settle (h : Agree n cs ds) (hr : rawWithHoles? cs = some k) (hle : k ≤ n) :
    rawWithHoles? ds = some k := by
  obtain ⟨hdollars, hle'⟩ := dollars_agree h
  obtain ⟨hquotes, -⟩ := quotes_agree (h.drop hle')
  simp only [rawWithHoles?, ← opensRaw_agree h, ← hdollars, ← hquotes] at hr ⊢
  obtain ⟨hopens, hr⟩ := Option.ite_none_right_eq_some.mp hr
  rw [if_pos hopens]
  exact literal_settle rawRest?_settle h hr hle

/-- A brace ends the content of a string with holes, unless it is doubled. -/
theorem contentSize_brace (cs : List Char) :
    contentSize isVerbatim 0 ('{' :: cs) =
      if cs.head? = some '{' then contentSize isVerbatim 1 cs + 1 else 0 := by
  cases cs with
  | nil => rfl
  | cons d cs =>
      by_cases hd : d = '{'
      · subst hd
        rfl
      · simp [contentSize, hd]

/-- A quote ends it, unless it is doubled in a verbatim string. -/
theorem contentSize_quote (cs : List Char) :
    contentSize isVerbatim 0 ('"' :: cs) =
      if cs.head? = some '"' then if isVerbatim then contentSize isVerbatim 1 cs + 1 else 0 else 0 := by
  cases cs with
  | nil => rfl
  | cons d cs =>
      by_cases hd : d = '"'
      · subst hd
        rfl
      · simp [contentSize, hd]

/-- What stands in a string in front of a hole or the end, where that is in front of the stop. -/
theorem contentSize_settle {skip : Nat} (h : Agree n cs ds) (hlt : contentSize isVerbatim skip cs < n) :
    contentSize isVerbatim skip ds = contentSize isVerbatim skip cs := by
  induction h generalizing skip with
  | stop => exact absurd hlt (Nat.not_lt_zero _)
  | @cons c n cs ds h ih =>
      cases skip with
      | succ skip =>
          rw [contentSize] at hlt
          rw [contentSize, contentSize, ih (Nat.lt_of_succ_lt_succ hlt)]
      | zero =>
          by_cases hbrace : c = '{'
          · subst hbrace
            rw [contentSize_brace] at hlt
            rw [contentSize_brace, contentSize_brace, ← h.head?_eq]
            split
            · next hhead =>
              rw [if_pos hhead] at hlt
              rw [ih (Nat.lt_of_succ_lt_succ hlt)]
            · rfl
          by_cases hquote : c = '"'
          · subst hquote
            rw [contentSize_quote] at hlt
            rw [contentSize_quote, contentSize_quote, ← h.head?_eq]
            split
            · next hhead =>
              rw [if_pos hhead] at hlt
              cases isVerbatim with
              | true => exact congrArg (· + 1) (ih (Nat.lt_of_succ_lt_succ hlt))
              | false => rfl
            · rfl
          by_cases hbreak : c = '\n'
          · subst hbreak
            rw [contentSize] at hlt
            rw [contentSize, contentSize]
            cases isVerbatim with
            | true => exact congrArg (· + 1) (ih (Nat.lt_of_succ_lt_succ hlt))
            | false => rfl
          by_cases hescape : c = '\\'
          · subst hescape
            rw [contentSize] at hlt
            rw [contentSize, contentSize, ← (escape?_agree h).1]
            cases isVerbatim with
            | true => exact congrArg (· + 1) (ih (Nat.lt_of_succ_lt_succ hlt))
            | false =>
                simp only [Bool.false_eq_true, if_false] at hlt ⊢
                split
                · next size hsize =>
                  rw [hsize] at hlt
                  exact congrArg (· + 1) (ih (Nat.lt_of_succ_lt_succ hlt))
                · rfl
          · rw [contentSize_of_ne hbrace hquote hbreak hescape] at hlt
            rw [contentSize_of_ne hbrace hquote hbreak hescape, contentSize_of_ne hbrace hquote hbreak hescape,
              ih (Nat.lt_of_succ_lt_succ hlt)]

end Lexeme

end InteropStubs
