import InteropStubs.Proofs.Token.Trivia

/-!
# Plain text

Words, points and the marks behind an alias, with gaps between them, are cut off alike wherever a blank follows
them (`Lexeme.cut_plain`), whatever they were cut from: words end where they ended in the text, or in front of the
blank.
-/

namespace InteropStubs

open Text Scan

/-! ### Words -/

namespace Scan

variable {skip size : Nat} {cs rest : List Char}

theorem wordRest_le (skip : Nat) (cs : List Char) : wordRest skip cs ≤ cs.length := by
  induction cs generalizing skip with
  | nil => cases skip <;> exact Nat.le_refl _
  | cons c cs ih =>
      cases skip with
      | succ skip => exact Nat.succ_le_succ (ih skip)
      | zero =>
          by_cases hc : c = '\\'
          · subst hc
            rw [wordRest]
            split
            · exact Nat.succ_le_succ (ih _)
            · exact Nat.zero_le _
          · rw [wordRest_of_ne hc]
            split
            · exact Nat.succ_le_succ (ih 0)
            · exact Nat.zero_le _

theorem le_wordRest (h : skip ≤ cs.length) : skip ≤ wordRest skip cs := by
  induction cs generalizing skip with
  | nil => exact h.trans (Nat.zero_le _)
  | cons c cs ih =>
      cases skip with
      | zero => exact Nat.zero_le _
      | succ skip => exact Nat.succ_le_succ (ih (Nat.le_of_succ_le_succ h))

/-- An escape that ends in a text is one of the text alone. -/
theorem wordEscape?_left (h : wordEscape? (cs ++ rest) = some size) (hle : size ≤ cs.length) :
    wordEscape? cs = some size := by
  have hpos : 5 ≤ size := by
    unfold wordEscape? at h
    split at h
    · split at h
      · exact Nat.le_of_eq (Option.some.inj h)
      · exact absurd h (by simp)
    · split at h
      · exact (by decide : 5 ≤ 9).trans (Nat.le_of_eq (Option.some.inj h))
      · exact absurd h (by simp)
    · exact absurd h (by simp)
  obtain ⟨c, cs, rfl⟩ := List.exists_cons_of_length_pos (Nat.lt_of_lt_of_le (by omega) hle)
  rw [List.length_cons] at hle
  have htake {n : Nat} (hn : n ≤ cs.length) : (cs ++ rest).take n = cs.take n := List.take_append_of_le_length hn
  by_cases hu : c = 'u'
  · subst hu
    rw [List.cons_append, wordEscape?] at h
    obtain ⟨hall, hsize⟩ := Option.ite_none_right_eq_some.mp h
    obtain rfl := Option.some.inj hsize
    rw [htake (by omega), Bool.and_eq_true] at hall
    rw [wordEscape?, if_pos (Bool.and_eq_true_iff.mpr ⟨decide_eq_true (by omega), hall.2⟩)]
  · by_cases hU : c = 'U'
    · subst hU
      rw [List.cons_append, wordEscape?] at h
      obtain ⟨hall, hsize⟩ := Option.ite_none_right_eq_some.mp h
      obtain rfl := Option.some.inj hsize
      rw [htake (by omega), Bool.and_eq_true] at hall
      rw [wordEscape?, if_pos (Bool.and_eq_true_iff.mpr ⟨decide_eq_true (by omega), hall.2⟩)]
    · rw [List.cons_append, wordEscape?_of_ne hu hU] at h
      exact absurd h (by simp)

/-- What is taken of a text is taken of it alone, and the word does not go on behind it. -/
theorem wordRest_left (hskip : skip ≤ cs.length) (h : wordRest skip (cs ++ rest) = cs.length) :
    wordRest skip cs = cs.length ∧ wordRest 0 rest = 0 := by
  induction cs generalizing skip with
  | nil =>
      obtain rfl := Nat.le_zero.mp hskip
      exact ⟨rfl, h⟩
  | cons c cs ih =>
      cases skip with
      | succ skip =>
          obtain ⟨hcs, hrest⟩ := ih (Nat.le_of_succ_le_succ hskip) (Nat.succ.inj h)
          exact ⟨congrArg (· + 1) hcs, hrest⟩
      | zero =>
          by_cases hc : c = '\\'
          · subst hc
            rw [List.cons_append, wordRest] at h
            split at h
            · next size hsize =>
              replace h : wordRest size (cs ++ rest) = cs.length := Nat.succ.inj h
              -- An escape that went on into `rest` would take more than `cs` with it.
              have hle : size ≤ cs.length := by
                by_contra hlong
                obtain ⟨-, hbound⟩ := wordEscape?_append [] hsize
                exact hlong (h ▸ le_wordRest hbound)
              obtain ⟨hcs, hrest⟩ := ih hle h
              rw [wordRest, wordEscape?_left hsize hle]
              exact ⟨congrArg (· + 1) hcs, hrest⟩
            · exact absurd h (by simp)
          · rw [List.cons_append, wordRest_of_ne hc] at h
            rw [wordRest_of_ne hc]
            split at h
            · next hcontinue =>
              obtain ⟨hcs, hrest⟩ := ih (Nat.zero_le _) (Nat.succ.inj h)
              rw [if_pos hcontinue]
              exact ⟨congrArg (· + 1) hcs, hrest⟩
            · exact absurd h (by simp)

theorem plainWord?_left (h : plainWord? (cs ++ rest) = some cs.length) :
    plainWord? cs = some cs.length ∧ wordRest 0 rest = 0 := by
  cases cs with
  | nil =>
      unfold plainWord? at h
      split at h
      · exact absurd h (by simp)
      · split at h <;> exact absurd h (by simp)
      · split at h <;> exact absurd h (by simp)
  | cons c cs =>
      by_cases hc : c = '\\'
      · subst hc
        rw [List.cons_append, plainWord?] at h
        split at h
        · next size hsize =>
          replace h : wordRest size (cs ++ rest) = cs.length := Nat.succ.inj (Option.some.inj h)
          have hle : size ≤ cs.length := by
            by_contra hlong
            obtain ⟨-, hbound⟩ := wordEscape?_append [] hsize
            exact hlong (h ▸ le_wordRest hbound)
          obtain ⟨hcs, hrest⟩ := wordRest_left hle h
          rw [plainWord?, wordEscape?_left hsize hle]
          exact ⟨congrArg (fun n => some (n + 1)) hcs, hrest⟩
        · exact absurd h (by simp)
      · rw [List.cons_append, plainWord?_of_ne hc] at h
        obtain ⟨hstart, h⟩ := Option.ite_none_right_eq_some.mp h
        obtain ⟨hcs, hrest⟩ := wordRest_left (Nat.zero_le _) (Nat.succ.inj (Option.some.inj h))
        rw [plainWord?_of_ne hc, if_pos hstart]
        exact ⟨congrArg (fun n => some (n + 1)) hcs, hrest⟩

/-- **A word at the beginning of a text** is one alone, and it does not go on. -/
theorem word?_left (h : word? (cs ++ rest) = some cs.length) : word? cs = some cs.length ∧ wordRest 0 rest = 0 := by
  cases cs with
  | nil =>
      obtain ⟨n, hn⟩ : ∃ n, some (n + 1) = some 0 := by
        unfold word? at h
        split at h
        · obtain ⟨n, -, hn⟩ := Option.map_eq_some_iff.mp h
          exact ⟨n, congrArg some hn⟩
        · have hnil : plainWord? [] = some 0 := (plainWord?_left h).1
          exact absurd hnil (by simp [plainWord?])
      exact absurd hn (by simp)
  | cons c cs =>
      by_cases hc : c = '@'
      · subst hc
        obtain ⟨size, hsize, hlength⟩ := Option.map_eq_some_iff.mp h
        obtain rfl := Nat.succ.inj hlength
        obtain ⟨hcs, hrest⟩ := plainWord?_left hsize
        exact ⟨by simp [word?, hcs], hrest⟩
      · rw [List.cons_append, word?_of_ne hc] at h
        rw [word?_of_ne hc]
        exact plainWord?_left h

/-- Where a word does not go on, it ends. -/
theorem endsWord_of_wordRest (h : wordRest 0 rest = 0) (hword : rest.head? = some '\\' → word? rest ≠ none) :
    ∀ c ∈ rest.head?, endsWord c = true := by
  intro c hc
  obtain ⟨rest, rfl⟩ := List.head?_eq_some_iff.mp hc
  by_cases hbackslash : c = '\\'
  · subst hbackslash
    refine absurd ?_ (hword rfl)
    rw [wordRest] at h
    split at h
    · exact absurd h (by simp)
    · next hnone => simp [word?, plainWord?, hnone]
  · rw [wordRest_of_ne hbackslash] at h
    split at h
    · exact absurd h (by simp)
    · next hcontinue => simp [endsWord, hcontinue, hbackslash]

theorem plainWord?_le (h : plainWord? cs = some size) : size ≤ cs.length ∧ 0 < size := by
  unfold plainWord? at h
  split at h
  · exact absurd h (by simp)
  · split at h
    · obtain rfl := Option.some.inj h
      exact ⟨Nat.succ_le_succ (wordRest_le _ _), Nat.succ_pos _⟩
    · exact absurd h (by simp)
  · obtain ⟨-, h⟩ := Option.ite_none_right_eq_some.mp h
    obtain rfl := Option.some.inj h
    exact ⟨Nat.succ_le_succ (wordRest_le _ _), Nat.succ_pos _⟩

theorem word?_le (h : word? cs = some size) : size ≤ cs.length ∧ 0 < size := by
  unfold word? at h
  split at h
  · obtain ⟨size', hsize, rfl⟩ := Option.map_eq_some_iff.mp h
    exact ⟨Nat.succ_le_succ (plainWord?_le hsize).1, Nat.succ_pos _⟩
  · exact plainWord?_le h

end Scan

namespace Lexeme

open Token

variable {c : Char} {k : Nat} {cs left new : List Char} {shape : Shape} {behind : List Surrounding} {l : Lexeme}
  {lexemes rest : List Lexeme}

/-- Whether a lexeme is a piece of a gap, a word, a point or the mark behind an alias. -/
def isPlain (l : Lexeme) : Bool :=
  match l.shape with
  | .blank | .comment | .directive | .token .word => true
  | .token .mark => l.text == ['.'] || l.text == [':', ':']
  | .token _ => false

/-! ### Points and aliases -/

/-- No number begins with a point that no digit follows. -/
theorem first_eq_mark_of_point (hc : c = '.' ∨ c = ':') (hcs : ∀ d ∈ cs.head?, d.isDigit = false) :
    first c cs = mark c cs := by
  have hmem : c ∈ plainMarks := by rcases hc with rfl | rfl <;> decide
  have hnumber := number?_mark hmem hcs
  have hnone : isBlank c = false ∧ isIdentifierStart c = false := by rcases hc with rfl | rfl <;> decide
  rcases hc with rfl | rfl
  all_goals simp [first, hnone, hnumber, comment?, word?, plainWord?, string?, opensRaw, rawWithHoles?, opening?,
    countWhile]

theorem first_point (hcs : ∀ d ∈ cs.head?, d.isDigit = false ∧ d ≠ '.') : first '.' cs = (.token .mark, 0) := by
  have hlong : ∀ m ∈ longMarks, m.toList.head? = some '.' → m.toList.tail.head? = some '.' := by decide
  rw [first_eq_mark_of_point (.inl rfl) fun d hd => (hcs d hd).1, mark_of_short (by decide)]
  exact fun m hm h heq => (hcs '.' (heq.symm.trans (hlong m hm h))).2 rfl

theorem first_points (cs : List Char) : first '.' ('.' :: cs) = (.token .mark, 1) := by
  have hdigit : ∀ d ∈ ('.' :: cs).head?, d.isDigit = false := fun d hd => Option.some.inj hd ▸ by decide
  rw [first_eq_mark_of_point (.inl rfl) hdigit]
  simp [mark, longMarks, List.find?, List.isPrefixOf]

theorem first_alias (cs : List Char) : first ':' (':' :: cs) = (.token .mark, 1) := by
  have hdigit : ∀ d ∈ (':' :: cs).head?, d.isDigit = false := fun d hd => Option.some.inj hd ▸ by decide
  rw [first_eq_mark_of_point (.inr rfl) hdigit]
  simp [mark, longMarks, List.find?, List.isPrefixOf]

/-! ### Plain lexemes -/

theorem next_of_first (hfirst : first c cs = (shape, k)) (hopening : shape ≠ .token .openingQuote) :
    next [] c cs = (shape, k, []) := by
  have hbehind : behindCode [] shape c (cs.take k) (cs.drop k) = [] := by
    unfold behindCode
    split
    · exact absurd rfl hopening
    · next heq => exact absurd heq (by simp)
    · rfl
  simp only [next, hfirst, hbehind]

theorem behind_eq_nil_of_next (hnext : next [] c cs = (shape, k, behind)) (hopening : shape ≠ .token .openingQuote) :
    behind = [] := by
  obtain rfl : (first c cs).1 = shape := (Prod.mk.inj hnext).1
  have hfirst := next_of_first (k := (first c cs).2) rfl hopening
  exact (Prod.mk.inj (Prod.mk.inj (hnext.symm.trans hfirst)).2).2

theorem next_word (h : word? (c :: cs) = some (k + 1)) : next [] c cs = (.token .word, k, []) :=
  next_of_first (first_of_word? h) (by simp)

/-- What begins with a plain lexeme begins with no digit and no equals sign, and with a backslash only if a word
does. -/
def BeginsPlain (cs : List Char) : Prop :=
  ∀ d ∈ cs.head?, (d.isDigit = false ∧ d ≠ '=') ∧ (d = '\\' → word? cs ≠ none)

theorem beginsPlain_of_cut (h : cut [] 0 cs = l :: lexemes) (hl : l.isPlain = true) : BeginsPlain cs := by
  obtain ⟨c, cs, k, behind, rfl, hnext, htext, -⟩ := exists_of_cut h
  intro d hd
  obtain rfl := Option.some.inj hd
  obtain ⟨shape, text⟩ := l
  dsimp only at hnext htext
  have hplain (hc : (c.isDigit = false ∧ c ≠ '=') ∧ c ≠ '\\') :
      (c.isDigit = false ∧ c ≠ '=') ∧ (c = '\\' → word? (c :: cs) ≠ none) :=
    ⟨hc.1, fun heq => absurd heq hc.2⟩
  cases code_of_next hnext with
  | blank hc =>
      refine hplain ⟨⟨isDigit_eq_false_of_isQuiet (isQuiet_of_isBlank hc), ?_⟩, ?_⟩ <;> rintro rfl
      · exact absurd hc (by decide)
      · exact absurd hc (by decide)
  | comment hcomment => exact hplain ((exists_of_comment? hcomment).1 ▸ by decide)
  | directive hc => exact hplain (hc ▸ by decide)
  | word hword =>
      refine ⟨⟨isDigit_eq_false_of_isQuiet (head_of_word? hword).2.1, ?_⟩, fun _ => by simp [hword]⟩
      rintro rfl
      exact absurd (beginsWord_of_word? hword) (by decide)
  | mark =>
      have hcases : text = ['.'] ∨ text = [':', ':'] := by simpa [isPlain] using hl
      rw [htext] at hcases
      rcases hcases with heq | heq
      · exact hplain ((List.cons.inj heq).1 ▸ by decide)
      · exact hplain ((List.cons.inj heq).1 ▸ by decide)
  | _ => exact absurd hl (by simp [isPlain])

/-- What may come to stand behind a lexeme: what begins as the text behind it did, or a blank behind a token. -/
def MayFollow (shape : Shape) (left new : List Char) : Prop :=
  new.head? = left.head? ∧ BeginsPlain left ∨ shape.kind?.isSome = true ∧ ∀ d ∈ new.head?, isBlank d = true

/-- Blanks depend on the next character only. -/
theorem next_blanks (hc : isBlank c = true) (hnew : new.head? = (cs.drop (countWhile isBlank cs)).head?) :
    next [] c (cs.take (countWhile isBlank cs) ++ new) = (.blank, countWhile isBlank cs, []) := by
  have hsplit := List.takeWhile_append_dropWhile (p := isBlank) (l := cs)
  have hfront : ∀ d ∈ cs.takeWhile isBlank, isBlank d = true := fun d hd => List.mem_takeWhile_imp hd
  have hleft := List.head?_dropWhile_not isBlank cs
  rw [countWhile] at hnew ⊢
  generalize cs.takeWhile isBlank = front at hsplit hfront hnew ⊢
  generalize cs.dropWhile isBlank = left at hsplit hleft
  subst hsplit
  rw [List.drop_left] at hnew
  rw [List.take_left, next_blank hc]
  have hcount : countWhile isBlank (front ++ new) = front.length := by
    rw [countWhile, List.takeWhile_append_of_pos hfront]
    cases new with
    | nil => simp
    | cons d new =>
        rw [← hnew] at hleft
        have hd : isBlank d = false := by simpa using hleft
        simp [hd]
  rw [hcount]

/-- So do comments. -/
theorem next_comment_again (h : comment? (c :: cs) = some (k + 1)) :
    k ≤ cs.length ∧
      ∀ new, new.head? = (cs.drop k).head? → next [] c (cs.take k ++ new) = (.comment, k, []) := by
  obtain ⟨rfl, ⟨body, after, rfl, hbody, hafter, hsize⟩ | ⟨body, after, rfl, hbody, hsize⟩⟩ := exists_of_comment? h
  · obtain rfl : k = body.length + 1 := Nat.succ.inj hsize
    refine ⟨by simp, fun new hnew => ?_⟩
    rw [List.drop_succ_cons, List.drop_left] at hnew
    rw [List.take_succ_cons, List.take_left]
    exact next_comment (comment?_line new hbody fun d hd => hafter d (hnew ▸ hd))
  · obtain rfl : k = body.length + 3 := Nat.succ.inj hsize
    refine ⟨by simp, fun new _ => ?_⟩
    have hsplit (after : List Char) :
        '*' :: (body ++ '*' :: '/' :: after) = ('*' :: (body ++ ['*', '/'])) ++ after := by simp
    rw [hsplit after, List.take_left' (by simp), ← hsplit new]
    have hcomment : comment? ('/' :: '*' :: (body ++ '*' :: '/' :: new)) = some (body.length + 3 + 1) :=
      congrArg (Option.map (· + 2)) (blockRest?_append hbody new)
    exact next_comment hcomment

/-- A directive ends with a line break of its own. -/
theorem next_directive_again (hnext : next [] '#' cs = (.directive, k, behind)) :
    behind = [] ∧ k ≤ cs.length ∧ ∀ new, next [] '#' (cs.take k ++ new) = (.directive, k, []) := by
  obtain ⟨line, rest, -, rfl, rfl, rfl, hextent⟩ := exists_line_of_next hnext
  have hsplit (rest : List Char) : line ++ '\n' :: rest = (line ++ ['\n']) ++ rest := by simp
  have hlength : (line ++ ['\n']).length = line.length + 1 := by simp
  refine ⟨rfl, by simp, fun new => ?_⟩
  have hagree : Agree line.length (line ++ '\n' :: rest) (line ++ '\n' :: new) := .append (by decide) line rest new
  have hsettle := Directive.extent_settle hagree (k := line.length + 1) (by rw [hextent]; rfl) (Nat.le_refl _)
  rw [hsplit rest, List.take_left' hlength, ← hsplit new, next_hash, hsettle, hextent]
  rfl

/-- A piece of a gap depends on the next character at most. -/
theorem next_piece (hnext : next [] c cs = (shape, k, behind)) (hpiece : shape.kind? = none) :
    behind = [] ∧ k ≤ cs.length ∧
      ∀ new, new.head? = (cs.drop k).head? → next [] c (cs.take k ++ new) = (shape, k, []) := by
  cases code_of_next hnext with
  | blank hc =>
      obtain ⟨rfl, rfl⟩ := Prod.mk.inj (Prod.mk.inj (hnext.symm.trans (next_blank hc cs))).2
      exact ⟨rfl, countWhile_le _ _, fun new hnew => next_blanks hc hnew⟩
  | @comment size hcomment =>
      obtain ⟨rfl, rfl⟩ := Prod.mk.inj (Prod.mk.inj (hnext.symm.trans (next_comment hcomment))).2
      have hsize : size = size - 1 + 1 := by have := two_le_of_comment? hcomment; omega
      rw [hsize] at hcomment
      exact ⟨rfl, next_comment_again hcomment⟩
  | directive hc =>
      subst hc
      obtain ⟨hbehind, hle, hall⟩ := next_directive_again hnext
      exact ⟨hbehind, hle, fun new _ => hall new⟩
  | _ => exact absurd hpiece (by simp [Shape.kind?])

/-- A word ends where it did. -/
theorem next_word_again (h : word? (c :: cs) = some (k + 1)) :
    k ≤ cs.length ∧
      ∀ new, MayFollow (.token .word) (cs.drop k) new → next [] c (cs.take k ++ new) = (.token .word, k, []) := by
  have hle : k ≤ cs.length := Nat.le_of_succ_le_succ (word?_le h).1
  refine ⟨hle, fun new hnew => next_word ?_⟩
  have hlength : (c :: cs.take k).length = k + 1 := by simp [hle]
  have hsplit : c :: cs = (c :: cs.take k) ++ cs.drop k := by simp
  rw [hsplit, ← hlength] at h
  obtain ⟨hword, hrest⟩ := word?_left h
  have hends : ∀ d ∈ new.head?, endsWord d = true := by
    rcases hnew with ⟨hhead, hbegins⟩ | ⟨-, hblank⟩
    · rw [hhead]
      exact endsWord_of_wordRest hrest fun hd => (hbegins _ hd).2 rfl
    · exact fun d hd => endsWord_of_isBlank (hblank d hd)
  rw [← List.cons_append, word?_append hword hends, hlength]

/-- So does a point or the mark behind an alias. -/
theorem next_mark_again (hnext : next [] c cs = (.token .mark, k, behind))
    (hplain : c :: cs.take k = ['.'] ∨ c :: cs.take k = [':', ':']) :
    k ≤ cs.length ∧
      ∀ new, MayFollow (.token .mark) (cs.drop k) new → next [] c (cs.take k ++ new) = (.token .mark, k, []) := by
  have hfirst {cs' : List Char} {k' : Nat} (h : first c cs' = (.token .mark, k')) :
      next [] c cs' = (.token .mark, k', []) := next_of_first h (by simp)
  have hunique {k' : Nat} (h : first c cs = (.token .mark, k')) : k = k' :=
    (Prod.mk.inj (Prod.mk.inj (hnext.symm.trans (hfirst h))).2).1
  rcases hplain with heq | heq
  · obtain ⟨rfl, htake⟩ := List.cons.inj heq
    have hpoint : cs.head? ≠ some '.' := by
      intro hhead
      obtain ⟨left, rfl⟩ := List.head?_eq_some_iff.mp hhead
      obtain rfl := hunique (first_points left)
      exact absurd htake (by simp)
    obtain rfl : k = 0 := by
      rcases List.take_eq_nil_iff.mp htake with hzero | rfl
      · exact hzero
      · exact hunique (first_point (by simp))
    refine ⟨Nat.zero_le _, fun new hnew => hfirst (first_point fun d hd => ?_)⟩
    rcases hnew with ⟨hhead, hbegins⟩ | ⟨-, hblank⟩
    · rw [List.drop_zero] at hhead hbegins
      rw [List.take_zero, List.nil_append, hhead] at hd
      exact ⟨(hbegins d hd).1.1, fun heq => hpoint (heq ▸ hd)⟩
    · have hquiet := isQuiet_of_isBlank (hblank d hd)
      refine ⟨isDigit_eq_false_of_isQuiet hquiet, ?_⟩
      rintro rfl
      exact absurd hquiet (by decide)
  · obtain ⟨rfl, htake⟩ := List.cons.inj heq
    obtain ⟨left, rfl⟩ : [':'] <+: cs := htake ▸ List.take_prefix k cs
    obtain rfl := hunique (first_alias left)
    exact ⟨by simp, fun new _ => hfirst (first_alias new)⟩

/-- **A plain lexeme** is cut off alike from other texts. -/
theorem next_plain (hnext : next [] c cs = (shape, k, behind)) (hplain : isPlain ⟨shape, c :: cs.take k⟩ = true) :
    behind = [] ∧ k ≤ cs.length ∧
      ∀ new, MayFollow shape (cs.drop k) new → next [] c (cs.take k ++ new) = (shape, k, []) := by
  by_cases hpiece : shape.kind? = none
  · obtain ⟨hbehind, hle, hall⟩ := next_piece hnext hpiece
    refine ⟨hbehind, hle, fun new hnew => hall new ?_⟩
    exact (hnew.resolve_right fun h => by simp [hpiece] at h).1
  · have hopening : shape ≠ .token .openingQuote := by
      rintro rfl
      exact absurd hplain (by simp [isPlain])
    refine ⟨behind_eq_nil_of_next hnext hopening, ?_⟩
    cases code_of_next hnext with
    | blank | comment | directive => exact absurd rfl hpiece
    | @word size hword =>
        obtain ⟨size, rfl⟩ := Nat.exists_eq_add_one.mpr (word?_le hword).2
        obtain ⟨rfl, -⟩ := Prod.mk.inj (Prod.mk.inj (hnext.symm.trans (next_word hword))).2
        exact next_word_again hword
    | mark => exact next_mark_again hnext (by simpa [isPlain] using hplain)
    | _ => exact absurd hplain (by simp [isPlain])

/-- Behind plain text a text is cut as it is alone. -/
theorem cut_behind_plain (h : cut [] 0 cs = lexemes ++ rest) (hplain : ∀ l ∈ lexemes, l.isPlain = true) :
    cs = chars lexemes ++ chars rest ∧ cut [] 0 (chars rest) = rest := by
  induction lexemes generalizing cs with
  | nil =>
      obtain rfl : cut [] 0 cs = rest := h
      rw [chars_cut]
      exact ⟨rfl, rfl⟩
  | cons l lexemes ih =>
      obtain ⟨hl, hlexemes⟩ := List.forall_mem_cons.mp hplain
      obtain ⟨c, cs, k, behind, rfl, hnext, htext, hcut⟩ := exists_of_cut h
      obtain ⟨shape, text⟩ := l
      dsimp only at hnext htext
      subst htext
      obtain ⟨rfl, -⟩ := next_plain hnext hl
      obtain ⟨hsplit, hrest⟩ := ih hcut hlexemes
      refine ⟨?_, hrest⟩
      rw [chars_cons, List.append_assoc, ← hsplit, List.cons_append, List.take_append_drop]

/-- **Plain text is cut off alike** wherever a blank follows its last token. -/
theorem cut_plain (h : cut [] 0 cs = lexemes ++ rest) (hplain : ∀ l ∈ lexemes, l.isPlain = true)
    (hlast : ∀ l ∈ lexemes.getLast?, l.shape.kind?.isSome = true) (hnew : ∀ d ∈ new.head?, isBlank d = true) :
    cut [] 0 (chars lexemes ++ new) = lexemes ++ cut [] 0 new := by
  induction lexemes generalizing cs with
  | nil => rfl
  | cons l lexemes ih =>
      obtain ⟨hl, hlexemes⟩ := List.forall_mem_cons.mp hplain
      obtain ⟨c, cs, k, behind, rfl, hnext, htext, hcut⟩ := exists_of_cut h
      obtain ⟨shape, text⟩ := l
      dsimp only at hnext htext
      subst htext
      obtain ⟨rfl, hle, hall⟩ := next_plain hnext hl
      have hmore : ∀ l ∈ lexemes.getLast?, l.shape.kind?.isSome = true := fun l' hl' => by
        rw [Option.mem_def] at hl'
        exact hlast l' (by rw [List.getLast?_cons, hl']; rfl)
      -- Behind `l` comes what came there before, or the blank that `new` begins with.
      have hfollow : MayFollow shape (cs.drop k) (chars lexemes ++ new) := by
        cases lexemes with
        | nil => exact .inr ⟨hlast _ rfl, hnew⟩
        | cons l' lexemes =>
            refine .inl ⟨?_, beginsPlain_of_cut hcut (hlexemes l' List.mem_cons_self)⟩
            have hne : chars (l' :: lexemes) ≠ [] := by
              have htext := text_ne_nil_of_mem_cut (hcut ▸ List.mem_cons_self : l' ∈ cut [] 0 (cs.drop k))
              rw [chars_cons]
              exact fun heq => htext (List.append_eq_nil_iff.mp heq).1
            rw [(cut_behind_plain hcut hlexemes).1, List.head?_append_of_ne_nil _ hne, List.head?_append_of_ne_nil _ hne]
      have hcons := cut_cons (hall _ hfollow)
      have hlength : (cs.take k).length = k := List.length_take_of_le hle
      rw [List.take_left' hlength, List.drop_left' hlength, ih hcut hlexemes hmore] at hcons
      rw [chars_cons, List.append_assoc, List.cons_append, hcons, List.cons_append]

end Lexeme

end InteropStubs
