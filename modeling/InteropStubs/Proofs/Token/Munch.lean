import InteropStubs.Token.Lexeme

/-!
# Where lexemes end

Blanks, words and plain marks are cut off a text whatever stands behind them, as long as it does not
go on with them: blanks end in front of what is no blank (`Lexeme.cut_blanks`), a word in front of what
continues no word (`Lexeme.cut_word`), and a mark in front of what makes no longer mark or number of it
(`Lexeme.cut_mark`).
-/

namespace InteropStubs

open Text Scan

/-! ### Characters -/

namespace Text

/-- The blanks. -/
def blanks : List Char :=
  [' ', '\t', '\n', '\x0b', '\x0c', '\r', '\u00A0', '\uFEFF', '\u3000']

theorem mem_blanks {c : Char} (h : isBlank c = true) : c ∈ blanks := by
  simp only [isBlank, Bool.or_eq_true, beq_iff_eq, Bool.and_eq_true, decide_eq_true_eq] at h
  rcases h with (((rfl | ⟨hlo, hhi⟩) | rfl) | rfl) | rfl
  · decide
  · have hrange : ∀ n, 9 ≤ n → n ≤ 13 → Char.ofNat n ∈ blanks := by
      intro n hlo hhi
      obtain rfl | rfl | rfl | rfl | rfl : n = 9 ∨ n = 10 ∨ n = 11 ∨ n = 12 ∨ n = 13 := by omega
      all_goals decide
    have hc := hrange c.toNat hlo hhi
    rwa [Char.ofNat_toNat] at hc
  · decide
  · decide
  · decide

/-- A character that goes on with neither a word nor a mark nor a number. -/
def isQuiet (c : Char) : Bool :=
  !(c.isDigit || ['.', '?', ':'].contains c)

theorem isDigit_eq_false_of_isQuiet {c : Char} (h : isQuiet c = true) : c.isDigit = false := by
  rw [isQuiet, Bool.not_eq_true', Bool.or_eq_false_iff] at h
  exact h.1

theorem mem_of_isQuiet_eq_false {c : Char} (h : isQuiet c = false) :
    c ∈ "0123456789.?:".toList := by
  simp only [isQuiet, Bool.not_eq_false', Bool.or_eq_true] at h
  rcases h with h | h
  · have hrange : ∀ n < 10, Char.ofNat (48 + n) ∈ "0123456789.?:".toList := by decide
    have hc : 48 ≤ c.toNat ∧ c.toNat ≤ 57 := by
      simp only [Char.isDigit, Bool.and_eq_true, decide_eq_true_eq] at h
      exact ⟨UInt32.le_iff_toNat_le.mp h.1, UInt32.le_iff_toNat_le.mp h.2⟩
    have := hrange (c.toNat - 48) (by omega)
    rwa [Nat.add_sub_cancel' hc.1, Char.ofNat_toNat] at this
  · have hall : ['.', '?', ':'].all "0123456789.?:".toList.contains = true := by decide
    exact List.contains_iff_mem.mp (List.all_eq_true.mp hall c (List.contains_iff_mem.mp h))

/-- A character that ends words. -/
def endsWord (c : Char) : Bool :=
  !isIdentifierContinue c && c != '\\'

theorem isQuiet_of_isBlank {c : Char} (h : isBlank c = true) : isQuiet c = true := by
  have hall : blanks.all isQuiet = true := by decide
  exact List.all_eq_true.mp hall c (mem_blanks h)

theorem endsWord_of_isBlank {c : Char} (h : isBlank c = true) : endsWord c = true := by
  have hall : blanks.all endsWord = true := by decide +kernel
  exact List.all_eq_true.mp hall c (mem_blanks h)

theorem isBlank_eq_false_of_start {c : Char} (h : isIdentifierStart c = true) :
    isBlank c = false := by
  cases hc : isBlank c with
  | false => rfl
  | true =>
      have hends := endsWord_of_isBlank hc
      simp [endsWord, isIdentifierContinue_of_start h] at hends

end Text

/-! ### Words -/

namespace Scan

theorem wordEscape?_append {cs : List Char} (rest : List Char) {size : Nat}
    (h : wordEscape? cs = some size) :
    wordEscape? (cs ++ rest) = some size ∧ size ≤ cs.length := by
  unfold wordEscape? at h
  split at h
  · split at h
    · next cs hfour =>
      obtain rfl := Option.some.inj h
      obtain ⟨hlength, hall⟩ : 4 ≤ cs.length ∧ (cs.take 4).all isHexDigit = true := by
        simpa using hfour
      refine ⟨?_, by simp; omega⟩
      have htake : (cs ++ rest).take 4 = cs.take 4 := List.take_append_of_le_length hlength
      simp only [List.cons_append, wordEscape?, htake, hall, List.length_append]
      rw [if_pos (by simp; omega)]
    · exact absurd h nofun
  · split at h
    · next cs height =>
      obtain rfl := Option.some.inj h
      obtain ⟨hlength, hall⟩ : 8 ≤ cs.length ∧ (cs.take 8).all isHexDigit = true := by
        simpa using height
      refine ⟨?_, by simp; omega⟩
      have htake : (cs ++ rest).take 8 = cs.take 8 := List.take_append_of_le_length hlength
      simp only [List.cons_append, wordEscape?, htake, hall, List.length_append]
      rw [if_pos (by simp; omega)]
    · exact absurd h nofun
  · exact absurd h nofun

theorem wordRest_append {skip : Nat} {cs rest : List Char} (hskip : skip ≤ cs.length)
    (h : wordRest skip cs = cs.length) (hrest : ∀ c ∈ rest.head?, endsWord c = true) :
    wordRest skip (cs ++ rest) = cs.length := by
  induction cs generalizing skip with
  | nil =>
      obtain rfl := Nat.le_zero.mp hskip
      cases rest with
      | nil => rfl
      | cons c rest =>
          have hc : isIdentifierContinue c = false ∧ c ≠ '\\' := by
            simpa [endsWord] using hrest c rfl
          simp [wordRest_of_ne hc.2, hc.1]
  | cons c cs ih =>
      cases skip with
      | succ skip =>
          rw [wordRest, List.length_cons, Nat.add_right_cancel_iff] at h
          rw [List.cons_append, wordRest, ih (Nat.le_of_succ_le_succ hskip) h, List.length_cons]
      | zero =>
          by_cases hc : c = '\\'
          · subst hc
            rw [wordRest] at h
            split at h
            · next size hsize =>
              obtain ⟨happend, hle⟩ := wordEscape?_append rest hsize
              rw [List.length_cons, Nat.add_right_cancel_iff] at h
              rw [List.cons_append, wordRest, happend, List.length_cons]
              exact congrArg (· + 1) (ih hle h)
            · exact absurd h.symm (Nat.succ_ne_zero cs.length)
          · rw [wordRest_of_ne hc] at h
            split at h
            · next hcontinue =>
              rw [List.length_cons, Nat.add_right_cancel_iff] at h
              rw [List.cons_append, wordRest_of_ne hc, if_pos hcontinue, ih (Nat.zero_le _) h,
                List.length_cons]
            · exact absurd h.symm (Nat.succ_ne_zero cs.length)

theorem plainWord?_append {cs rest : List Char} (h : plainWord? cs = some cs.length)
    (hrest : ∀ c ∈ rest.head?, endsWord c = true) :
    plainWord? (cs ++ rest) = some cs.length := by
  unfold plainWord? at h
  split at h
  · exact absurd h nofun
  · next cs =>
    split at h
    · next size hsize =>
      obtain ⟨happend, hle⟩ := wordEscape?_append rest hsize
      rw [Option.some.injEq, List.length_cons, Nat.add_right_cancel_iff] at h
      simp [plainWord?, happend, wordRest_append hle h hrest]
    · exact absurd h nofun
  · next c cs hc =>
    split at h
    · next hstart =>
      rw [Option.some.injEq, List.length_cons, Nat.add_right_cancel_iff] at h
      rw [List.cons_append, plainWord?, if_pos hstart, wordRest_append (Nat.zero_le _) h hrest,
        List.length_cons]
      exact fun heq => hc heq
    · exact absurd h nofun

theorem word?_of_ne {c : Char} (h : c ≠ '@') (cs : List Char) :
    word? (c :: cs) = plainWord? (c :: cs) := by
  rw [word?]
  rintro ds heq
  exact h (List.cons.inj heq).1

/-- **A word ends in front of what continues no word.** -/
theorem word?_append {cs rest : List Char} (h : word? cs = some cs.length)
    (hrest : ∀ c ∈ rest.head?, endsWord c = true) : word? (cs ++ rest) = some cs.length := by
  cases cs with
  | nil => exact absurd h nofun
  | cons c cs =>
      by_cases hc : c = '@'
      · subst hc
        obtain ⟨size, hsize, hlength⟩ := Option.map_eq_some_iff.mp h
        rw [List.length_cons, Nat.add_right_cancel_iff] at hlength
        have := plainWord?_append (hlength ▸ hsize) hrest
        simp [word?, this]
      · rw [word?_of_ne hc] at h
        rw [List.cons_append, word?_of_ne hc]
        exact plainWord?_append h hrest

/-- Whether a word may begin with a character. -/
def beginsWord (c : Char) : Bool :=
  c == '@' || c == '\\' || isIdentifierStart c

/-- How words begin. -/
theorem beginsWord_of_word? {c : Char} {cs : List Char} {size : Nat} (h : word? (c :: cs) = some size) :
    beginsWord c = true := by
  by_cases hat : c = '@'
  · simp [beginsWord, hat]
  · rw [word?_of_ne hat] at h
    by_cases hc : c = '\\'
    · simp [beginsWord, hc]
    · rw [plainWord?] at h
      · split at h
        · next hstart => simp [beginsWord, hstart]
        · exact absurd h nofun
      · exact hc

/-- A word begins with no blank, and with nothing that goes on with a mark or a number or begins a
comment. -/
theorem head_of_word? {c : Char} {cs : List Char} {size : Nat} (h : word? (c :: cs) = some size) :
    isBlank c = false ∧ isQuiet c = true ∧ c ≠ '/' := by
  have hbegins : (c = '@' ∨ c = '\\') ∨ isIdentifierStart c = true := by
    simpa [beginsWord] using beginsWord_of_word? h
  rcases hbegins with (rfl | rfl) | hstart
  · decide
  · decide
  · refine ⟨isBlank_eq_false_of_start hstart, ?_, ?_⟩
    · have hall : ("0123456789.?:".toList.all fun d => !isIdentifierStart d) = true := by decide
      cases hquiet : isQuiet c with
      | true => rfl
      | false =>
          have hnone := List.all_eq_true.mp hall c (mem_of_isQuiet_eq_false hquiet)
          simp [hstart] at hnone
    · rintro rfl
      exact absurd hstart (by decide)

end Scan

namespace Lexeme

/-! ### Cutting -/

theorem cut_skip (around : List Surrounding) (cs rest : List Char) :
    cut around cs.length (cs ++ rest) = cut around 0 rest := by
  induction cs with
  | nil => rfl
  | cons c cs ih => exact ih

/-- A lexeme of code that begins no string is cut off. -/
theorem cut_of_first {shape : Shape} {c : Char} (cs : List Char) {rest : List Char}
    (h : first c (cs ++ rest) = (shape, cs.length))
    (hshape : shape = .blank ∨ shape = .token .word ∨ shape = .token .mark) :
    cut [] 0 (c :: cs ++ rest) = ⟨shape, c :: cs⟩ :: cut [] 0 rest := by
  have hbehind (taken left : List Char) : behindCode [] shape c taken left = [] := by
    rcases hshape with rfl | rfl | rfl <;> rfl
  rw [List.cons_append, cut]
  simp only [next, h, hbehind, List.take_left', cut_skip]

/-- **Blanks end in front of what is no blank.** -/
theorem cut_blanks {cs rest : List Char} (hne : cs ≠ []) (hcs : ∀ c ∈ cs, isBlank c = true)
    (hrest : ∀ c ∈ rest.head?, isBlank c = false) :
    cut [] 0 (cs ++ rest) = ⟨.blank, cs⟩ :: cut [] 0 rest := by
  obtain ⟨c, cs, rfl⟩ := List.exists_cons_of_ne_nil hne
  refine cut_of_first cs ?_ (.inl rfl)
  have hcount : countWhile isBlank (cs ++ rest) = cs.length := by
    rw [countWhile, List.takeWhile_append_of_pos fun d hd => hcs d (List.mem_cons_of_mem _ hd)]
    cases rest with
    | nil => simp
    | cons d rest => simp [hrest d rfl]
  rw [first_of_isBlank (hcs c List.mem_cons_self), hcount]

theorem first_of_word? {c : Char} {cs : List Char} {size : Nat} (h : word? (c :: cs) = some (size + 1)) :
    first c cs = (.token .word, size) := by
  obtain ⟨hblank, -, hslash⟩ := head_of_word? h
  have hcomment : comment? (c :: cs) = none := by
    unfold comment?
    split <;> simp_all
  unfold first
  simp [hblank, hcomment, h]

/-- **A word ends in front of what continues no word.** -/
theorem cut_word {cs rest : List Char} (h : word? cs = some cs.length)
    (hrest : ∀ c ∈ rest.head?, endsWord c = true) :
    cut [] 0 (cs ++ rest) = ⟨.token .word, cs⟩ :: cut [] 0 rest := by
  cases cs with
  | nil => exact absurd h nofun
  | cons c cs =>
      have hword := word?_append h hrest
      rw [List.cons_append] at hword
      exact cut_of_first cs (first_of_word? hword) (.inr (.inl rfl))

/-- The marks that are cut off here. -/
def plainMarks : List Char :=
  ['(', ')', '[', ']', '{', '}', '.', ',', ';', ':', '?']

theorem number?_mark {c : Char} (hc : c ∈ plainMarks) {rest : List Char}
    (hrest : ∀ d ∈ rest.head?, d.isDigit = false) : number? (c :: rest) = none := by
  have hdigit : c.isDigit = false := by
    have hall : (plainMarks.all fun c => !c.isDigit) = true := by decide
    simpa using List.all_eq_true.mp hall c hc
  have hzero : c ≠ '0' := by
    rintro rfl
    exact absurd hdigit (by decide)
  have hdecimal : decimal (c :: rest) = 0 := by simp [decimal, hdigit]
  have hfraction : decimal rest = 0 := by
    cases rest with
    | nil => rfl
    | cons d rest => simp [decimal, hrest d rfl]
  have hinteger : integer? (c :: rest) = none := by
    unfold integer?
    split
    · next heq => exact absurd (List.cons.inj heq).1 hzero
    · simp [hdecimal]
  have hreal : real? (c :: rest) = none := by
    simp only [real?, hdecimal, List.drop_zero]
    split
    · next heq =>
      obtain ⟨-, rfl⟩ := List.cons.inj heq
      simp [hfraction]
    · rfl
  simp [number?, hinteger, hreal]

theorem mark_eq {c : Char} (hc : c ∈ plainMarks) {rest : List Char}
    (hrest : ∀ d ∈ rest.head?, isQuiet d = true) : mark c rest = (.token .mark, 0) := by
  have hshort : shortMarks.contains c = true := by
    have hall : plainMarks.all shortMarks.contains = true := by decide
    exact List.all_eq_true.mp hall c hc
  -- a longer mark goes on with a point, a question mark or a colon
  have hlong : ∀ m ∈ longMarks, m.toList.head?.any plainMarks.contains = true →
      m.toList[1]?.any (fun d => !isQuiet d) = true := by decide
  have hnone : longMarks.find? (fun m => m.toList.isPrefixOf (c :: rest)) = none := by
    refine List.find?_eq_none.mpr fun m hm hprefix => ?_
    obtain ⟨left, hleft⟩ := List.isPrefixOf_iff_prefix.mp hprefix
    have hne : ∀ m ∈ longMarks, m.toList ≠ [] := by decide
    cases hm' : m.toList with
    | nil => exact absurd hm' (hne m hm)
    | cons e es =>
        rw [hm', List.cons_append, List.cons.injEq] at hleft
        have hsecond := hlong m hm (by rw [hm', hleft.1]; simpa using hc)
        rw [hm'] at hsecond
        cases es with
        | nil => exact absurd hsecond nofun
        | cons d es =>
            have hquiet := hrest d (by rw [← hleft.2]; rfl)
            simp [hquiet] at hsecond
  rw [mark, hnone]
  exact if_pos hshort

/-- **A mark ends in front of what goes on with neither a mark nor a number.** -/
theorem cut_mark {c : Char} (hc : c ∈ plainMarks) {rest : List Char}
    (hrest : ∀ d ∈ rest.head?, isQuiet d = true) :
    cut [] 0 (c :: rest) = ⟨.token .mark, [c]⟩ :: cut [] 0 rest := by
  refine cut_of_first [] ?_ (.inr (.inr rfl))
  have hnumber := number?_mark hc fun d hd => isDigit_eq_false_of_isQuiet (hrest d hd)
  have hmark := mark_eq hc hrest
  have hblank : isBlank c = false := by
    have hall : (plainMarks.all fun c => !isBlank c) = true := by decide
    simpa using List.all_eq_true.mp hall c hc
  have hstart : isIdentifierStart c = false := by
    have hall : (plainMarks.all fun c => !isIdentifierStart c) = true := by decide
    simpa using List.all_eq_true.mp hall c hc
  simp only [plainMarks, List.mem_cons, List.not_mem_nil, or_false] at hc
  rw [List.nil_append]
  unfold first
  rcases hc with rfl | rfl | rfl | rfl | rfl | rfl | rfl | rfl | rfl | rfl | rfl
  all_goals simp [hblank, hstart, hnumber, hmark, comment?, word?, plainWord?, string?,
    opensRaw, rawWithHoles?, opening?, countWhile]

end Lexeme

end InteropStubs
