import InteropStubs.Proofs.Token.Extent

/-!
# Lexemes in front of a stop

A lexeme that is not broken and that ends in front of the stop up to which two texts agree begins both of
them (`Lexeme.next_settle`).
-/

namespace InteropStubs

open Text Scan

/-- Whether text is no token. -/
def Shape.isBroken : Shape → Bool
  | .token (.broken _) => true
  | _ => false

namespace Lexeme

variable {n k : Nat} {c : Char} {cs ds : List Char} {shape : Shape}

/-- The lexeme of a directive. -/
def ofExtent : Directive.Extent → Shape × Nat
  | .trivia size => (.directive, size)
  | .enclosing size => (.token .conditional, size)
  | .shebang size => (.token .shebang, size)
  | .cutOff name size => (.token (.broken ("preproc_" ++ name)), size)
  | .malformed => (broken, 0)

/-- The lexeme of code that is neither a gap nor a word nor a number nor a string. -/
def other (c : Char) (cs : List Char) : Shape × Nat :=
  match c with
  | '#' => ofExtent (Directive.extent cs)
  | '\x27' =>
    match characterRest? cs with
    | some size => (.token .character, size)
    | none => (broken, 0)
  | '"' => (broken, cs.length)
  | '/' => if cs.head? == some '*' then (broken, cs.length) else mark c cs
  | _ => mark c cs

/-- The first lexeme of some code, alternative by alternative. -/
theorem first_eq (c : Char) (cs : List Char) :
    first c cs =
      if isBlank c then (.blank, countWhile isBlank cs)
      else if let some size := comment? (c :: cs) then (.comment, size - 1)
      else if let some size := word? (c :: cs) then (.token .word, size - 1)
      else if let some size := number? (c :: cs) then (.token .number, size - 1)
      else if let some size := (string? (c :: cs)).or (rawWithHoles? (c :: cs)) then (.token .string, size - 1)
      else if opensRaw (c :: cs) then (broken, cs.length)
      else if let some (size, _) := opening? (c :: cs) then (.token .openingQuote, size - 1)
      else other c cs := by
  have hother : other c cs = match c with
      | '#' =>
        match Directive.extent cs with
        | .trivia size => (.directive, size)
        | .enclosing size => (.token .conditional, size)
        | .shebang size => (.token .shebang, size)
        | .cutOff name size => (.token (.broken ("preproc_" ++ name)), size)
        | .malformed => (broken, 0)
      | '\x27' =>
        match characterRest? cs with
        | some size => (.token .character, size)
        | none => (broken, 0)
      | '"' => (broken, cs.length)
      | '/' => if cs.head? == some '*' then (broken, cs.length) else mark c cs
      | _ => mark c cs := by
    unfold other
    split
    · cases Directive.extent cs <;> rfl
    all_goals rfl
  rw [hother]
  rfl

/-- What a lexeme of code can be, and how it begins. -/
inductive Code (c : Char) (cs : List Char) : Shape → Prop
  | blank (h : isBlank c = true) : Code c cs .blank
  | comment {size : Nat} (h : comment? (c :: cs) = some size) : Code c cs .comment
  | directive (hc : c = '#') : Code c cs .directive
  | word {size : Nat} (h : word? (c :: cs) = some size) : Code c cs (.token .word)
  | number : Code c cs (.token .number)
  | string : Code c cs (.token .string)
  | openingQuote : Code c cs (.token .openingQuote)
  | character : Code c cs (.token .character)
  | mark : Code c cs (.token .mark)
  | conditional : Code c cs (.token .conditional)
  | shebang : Code c cs (.token .shebang)
  | broken (what : String) : Code c cs (.token (.broken what))

/-- A mark is a lexeme of code. -/
theorem code_mark (c d : Char) (cs ds : List Char) : Code c cs (mark d ds).1 := by
  unfold mark
  split
  · exact .mark
  · split
    · exact .mark
    · exact .broken _

/-- What begins with neither blank, comment, word nor number is a lexeme of code. -/
theorem code_other (c : Char) (cs : List Char) : Code c cs (other c cs).1 := by
  unfold other
  split
  · cases Directive.extent cs with
    | trivia => exact .directive rfl
    | enclosing => exact .conditional
    | shebang => exact .shebang
    | cutOff | malformed => exact .broken _
  · split
    · exact .character
    · exact .broken _
  · exact .broken _
  · split
    · exact .broken _
    · exact code_mark ..
  · exact code_mark ..

/-- **The first lexeme of code** is one of code. -/
theorem code_first (c : Char) (cs : List Char) : Code c cs (first c cs).1 := by
  rw [first_eq]
  split
  · next h => exact .blank h
  split
  · next h => exact .comment h
  split
  · next h => exact .word h
  split
  · exact .number
  split
  · exact .string
  split
  · exact .broken _
  split
  · exact .openingQuote
  · exact code_other c cs

/-- A directive that ends in front of the border is the same lexeme. -/
theorem ofExtent_settle (h : Agree n cs ds) (hf : ofExtent (Directive.extent cs) = (shape, k))
    (hshape : shape.isBroken = false) (hle : k ≤ n) : ofExtent (Directive.extent ds) = (shape, k) := by
  cases hextent : Directive.extent cs with
  | trivia size | enclosing size =>
      rw [hextent] at hf
      obtain ⟨rfl, rfl⟩ := Prod.mk.inj hf
      rw [Directive.extent_settle h (hextent ▸ rfl) (hle.trans (Nat.le_succ n)), hextent]
      rfl
  | shebang size =>
      rw [hextent] at hf
      obtain ⟨rfl, rfl⟩ := Prod.mk.inj hf
      rw [Directive.extent_shebang_settle h hextent hle]
      rfl
  | cutOff | malformed =>
      rw [hextent] at hf
      obtain ⟨rfl, -⟩ := Prod.mk.inj hf
      exact absurd hshape (by simp [Shape.isBroken, broken])

/-- What begins with no sign of a directive or of a literal is a mark, if no comment is open. -/
theorem other_of_ne (hhash : c ≠ '#') (hcharacter : c ≠ '\x27') (hquote : c ≠ '"') (cs : List Char) :
    other c cs = if c = '/' ∧ cs.head? = some '*' then (broken, cs.length) else mark c cs := by
  unfold other
  split <;> simp_all

/-- A comment that is not closed is broken. -/
theorem isBroken_other_comment (hopen : ['/', '*'].isPrefixOf (c :: cs) = true) :
    (other c cs).1.isBroken = true := by
  obtain ⟨rest, hrest⟩ := List.isPrefixOf_iff_prefix.mp hopen
  obtain ⟨rfl, rfl⟩ := List.cons.inj hrest
  rfl

/-- No mark of more than one character begins with `@`. -/
theorem find?_longMarks_at (cs : List Char) :
    (longMarks.find? fun m => m.toList.isPrefixOf ('@' :: cs)) = none := by
  have hhead : ∀ m ∈ longMarks, m.toList ≠ [] ∧ m.toList.head? ≠ some '@' := by decide
  refine List.find?_eq_none.mpr fun m hm => ?_
  obtain ⟨hne, hat⟩ := hhead m hm
  obtain ⟨a, m', hm'⟩ := List.exists_cons_of_ne_nil hne
  rw [hm'] at hat
  simp only [hm', List.isPrefixOf, Bool.and_eq_true, beq_iff_eq, not_and]
  exact fun heq => absurd (congrArg some heq) hat

/-- A string that is not closed is broken. -/
theorem isBroken_other_string (hbegins : beginsString (c :: cs) = true) : (other c cs).1.isBroken = true := by
  rcases Bool.or_eq_true_iff.mp hbegins with hquote | hverbatim
  · obtain ⟨rest, hrest⟩ := List.isPrefixOf_iff_prefix.mp hquote
    obtain ⟨rfl, rfl⟩ := List.cons.inj hrest
    rfl
  · obtain ⟨rest, hrest⟩ := List.isPrefixOf_iff_prefix.mp hverbatim
    obtain ⟨rfl, rfl⟩ := List.cons.inj hrest
    have hmark : mark '@' ('"' :: rest) = (broken, 0) := by
      rw [mark, find?_longMarks_at]
      rfl
    exact congrArg (fun m => m.1.isBroken) hmark

/-- What begins with neither blank, comment, word nor number is the same lexeme, if it ends in front of the border
and is not broken. -/
theorem other_settle (h : Agree n cs ds) (hf : other c cs = (shape, k)) (hshape : shape.isBroken = false)
    (hle : k ≤ n) : other c ds = (shape, k) := by
  by_cases hhash : c = '#'
  · subst hhash
    exact ofExtent_settle h hf hshape hle
  by_cases hcharacter : c = '\x27'
  · subst hcharacter
    have hcases (cs : List Char) : other '\x27' cs =
        (characterRest? cs).elim (broken, 0) fun size => (.token .character, size) := by
      unfold other
      cases characterRest? cs <;> rfl
    rw [hcases] at hf ⊢
    cases hsize : characterRest? cs with
    | some size =>
        rw [hsize] at hf
        obtain ⟨rfl, rfl⟩ := Prod.mk.inj hf
        rw [characterRest?_settle h hsize hle]
        rfl
    | none =>
        rw [hsize] at hf
        obtain ⟨rfl, -⟩ := Prod.mk.inj hf
        exact absurd hshape (by decide)
  by_cases hquote : c = '"'
  · subst hquote
    obtain ⟨rfl, -⟩ := Prod.mk.inj hf
    exact absurd hshape (by decide)
  · rw [other_of_ne hhash hcharacter hquote] at hf ⊢
    rw [← h.head?_eq, ← mark_agree h]
    split
    · next hopen =>
      rw [if_pos hopen] at hf
      obtain ⟨rfl, -⟩ := Prod.mk.inj hf
      exact absurd hshape (by decide)
    · next hopen => rwa [if_neg hopen] at hf

/-- A comment that is not closed. -/
theorem first_of_open (hopen : ['/', '*'].isPrefixOf (c :: cs) = true) (hcomment : comment? (c :: cs) = none) :
    (first c cs).1.isBroken = true := by
  have hother := isBroken_other_comment hopen
  obtain ⟨rest, hrest⟩ := List.isPrefixOf_iff_prefix.mp hopen
  obtain ⟨rfl, rfl⟩ := List.cons.inj hrest
  have hstart : isIdentifierStart '/' = false := by decide
  have hword : word? ('/' :: ['*'].append rest) = none := by simp [word?, plainWord?, hstart]
  have hnumber : number? ('/' :: ['*'].append rest) = none := by
    simp [number?, integer?_eq, prefixedDigits, decimal, real?_eq, fraction]
  have hstring : string? ('/' :: ['*'].append rest) = none := rfl
  have hraw : opensRaw ('/' :: ['*'].append rest) = false := rfl
  have hholes : rawWithHoles? ('/' :: ['*'].append rest) = none := rfl
  have hopening : opening? ('/' :: ['*'].append rest) = none := rfl
  rw [first_eq]
  simp only [hcomment, hword, hnumber, hstring, hholes, hraw, hopening, Option.or_none]
  exact hother

/-- A string that is not closed. -/
theorem rest_of_beginsString (hbegins : beginsString (c :: cs) = true) :
    rawWithHoles? (c :: cs) = none ∧ opensRaw (c :: cs) = false ∧ opening? (c :: cs) = none := by
  rcases Bool.or_eq_true_iff.mp hbegins with hquote | hverbatim
  · obtain ⟨rest, hrest⟩ := List.isPrefixOf_iff_prefix.mp hquote
    obtain ⟨rfl, rfl⟩ := List.cons.inj hrest
    exact ⟨rfl, rfl, rfl⟩
  · obtain ⟨rest, hrest⟩ := List.isPrefixOf_iff_prefix.mp hverbatim
    obtain ⟨rfl, rfl⟩ := List.cons.inj hrest
    exact ⟨rfl, rfl, rfl⟩

/-- Where no comment begins, none begins in a text that agrees, since one that is not closed is broken. -/
theorem comment?_settle_none (h : Agree n cs ds) (hbroken : (first c cs).1.isBroken = false)
    (hcomment : comment? (c :: cs) = none) : comment? (c :: ds) = none := by
  have hopen : ['/', '*'].isPrefixOf (c :: cs) = false := by
    by_contra hopen
    rw [first_of_open (Bool.not_eq_false _ ▸ hopen) hcomment] at hbroken
    exact absurd hbroken Bool.false_ne_true.symm
  have hnone := not_begins_of_comment? hcomment hopen
  rw [beginsComment_agree (.cons c h)] at hnone
  exact comment?_of_not_begins hnone

/-- Nor does a string begin that is not closed. -/
theorem string?_settle_none (h : Agree n cs ds) (hblank : ¬ isBlank c = true) (hbroken : (first c cs).1.isBroken = false)
    (hcomment : comment? (c :: cs) = none) (hword : word? (c :: cs) = none) (hnumber : number? (c :: cs) = none)
    (hstring : string? (c :: cs) = none) : string? (c :: ds) = none := by
  have hbegins : beginsString (c :: cs) = false := by
    by_contra hbegins
    rw [Bool.not_eq_false] at hbegins
    obtain ⟨hholes, hraw, hopening⟩ := rest_of_beginsString hbegins
    rw [first_eq, if_neg hblank] at hbroken
    simp only [hcomment, hword, hnumber, hstring, hholes, hraw, hopening, Option.or_none, Bool.false_eq_true,
      if_false, isBroken_other_string hbegins] at hbroken
    exact absurd hbroken Bool.false_ne_true.symm
  rw [beginsString_agree (.cons c h)] at hbegins
  exact string?_of_not_begins hbegins

/-- Nor a raw string. -/
theorem rawWithHoles?_settle_none (h : Agree n cs ds) (hraw : opensRaw (c :: cs) = false) :
    rawWithHoles? (c :: ds) = none := by
  simp [rawWithHoles?, ← opensRaw_agree (.cons c h), hraw]

/-- The lexeme of code. -/
theorem first_settle (h : Agree n cs ds) (hf : first c cs = (shape, k)) (hshape : shape.isBroken = false)
    (hle : k ≤ n) : first c ds = (shape, k) := by
  have htext := Agree.cons c h
  have hbroken : (first c cs).1.isBroken = false := hf ▸ hshape
  rw [first_eq] at hf ⊢
  by_cases hblank : isBlank c = true
  · rw [if_pos hblank] at hf ⊢
    obtain ⟨rfl, rfl⟩ := Prod.mk.inj hf
    rw [countWhile_settle h hle]
  rw [if_neg hblank] at hf ⊢
  cases hcomment : comment? (c :: cs) with
  | some size =>
      rw [hcomment] at hf
      obtain ⟨rfl, rfl⟩ := Prod.mk.inj hf
      rw [comment?_settle htext hcomment (by omega)]
  | none =>
  simp only [hcomment, comment?_settle_none h hbroken hcomment, ← word?_agree htext, ← number?_agree htext,
    ← opensRaw_agree htext, ← opening?_agree htext] at hf ⊢
  cases hword : word? (c :: cs) with
  | some size =>
      rw [hword] at hf
      exact hf
  | none =>
  cases hnumber : number? (c :: cs) with
  | some size =>
      rw [hword, hnumber] at hf
      exact hf
  | none =>
  simp only [hword, hnumber] at hf ⊢
  cases hstring : string? (c :: cs) with
  | some size =>
      simp only [hstring, Option.some_or] at hf
      obtain ⟨rfl, rfl⟩ := Prod.mk.inj hf
      rw [string?_settle htext hstring (by omega), Option.some_or]
  | none =>
  rw [hstring, Option.none_or] at hf
  rw [string?_settle_none h hblank hbroken hcomment hword hnumber hstring, Option.none_or]
  cases hholes : rawWithHoles? (c :: cs) with
  | some size =>
      rw [hholes] at hf
      obtain ⟨rfl, rfl⟩ := Prod.mk.inj hf
      rw [rawWithHoles?_settle htext hholes (by omega)]
  | none =>
  have hraw : opensRaw (c :: cs) = false := by
    by_contra hraw
    simp only [hholes, Bool.not_eq_false _ ▸ hraw, if_true] at hf
    obtain ⟨rfl, -⟩ := Prod.mk.inj hf
    exact absurd hshape (by decide)
  simp only [hholes, rawWithHoles?_settle_none h hraw, hraw, Bool.false_eq_true, if_false] at hf ⊢
  cases hopening : opening? (c :: cs) with
  | some r =>
      rw [hopening] at hf
      exact hf
  | none =>
      rw [hopening] at hf
      exact other_settle h hf hshape hle

/-! ### Surroundings -/

/-- What is around the next lexeme depends on the first character behind this one alone. -/
theorem behindCode_congr {around : List Surrounding} {taken : List Char} (h : cs.head? = ds.head?) :
    behindCode around shape c taken cs = behindCode around shape c taken ds := by
  unfold behindCode
  simp only [h]

/-- What is next where code stands. -/
def nextOfCode (around : List Surrounding) (c : Char) (cs : List Char) : Shape × Nat × List Surrounding :=
  ((first c cs).1, (first c cs).2,
    behindCode around (first c cs).1 c (cs.take (first c cs).2) (cs.drop (first c cs).2))

/-- In a string a lexeme is its content, a hole or the quote that ends it. -/
theorem next_quote (isVerbatim : Bool) (outer : List Surrounding) (c : Char) (cs : List Char) :
    next (.quote isVerbatim :: outer) c cs =
      let size := contentSize isVerbatim 0 (c :: cs)
      if size != 0 then (.token .content, size - 1, .quote isVerbatim :: outer)
      else if c == '{' then (.token .mark, 0, .hole 0 0 :: .quote isVerbatim :: outer)
      else if c == '"' then (.token .closingQuote, encodingMark cs, outer)
      else (broken, 0, []) :=
  rfl

/-- **A lexeme that is not broken** and ends in front of the stop. The content of a string must not touch the
stop, since a brace behind it may be doubled. -/
theorem next_settle {around behind : List Surrounding} (h : Agree n cs ds)
    (hf : next around c cs = (shape, k, behind)) (hshape : shape.isBroken = false) (hle : k ≤ n)
    (hcontent : shape = .token .content → (∃ v outer, around = .quote v :: outer) → k < n) :
    next around c ds = (shape, k, behind) := by
  have hcode {around : List Surrounding} (hf : nextOfCode around c cs = (shape, k, behind)) :
      nextOfCode around c ds = (shape, k, behind) := by
    unfold nextOfCode at hf ⊢
    generalize hfirst : first c cs = r at hf
    obtain ⟨shape', k'⟩ := r
    obtain rfl : shape' = shape := (Prod.mk.inj hf).1
    obtain rfl : k' = k := (Prod.mk.inj (Prod.mk.inj hf).2).1
    rw [first_settle h hfirst hshape hle]
    have htake := h.take_eq (k := k') (by omega)
    have hdrop := (h.drop hle).head?_eq
    simp only [← htake, ← behindCode_congr hdrop]
    exact hf
  rcases around with _ | ⟨v | ⟨brackets, questions⟩ | _, outer⟩
  · exact hcode hf
  case cons.hole => exact hcode hf
  case cons.format =>
      unfold next at hf ⊢
      dsimp only at hf ⊢
      split at hf
      · next hbrace => rwa [if_pos hbrace]
      · next hbrace =>
        split at hf
        · next hquote => rwa [if_neg hbrace, if_pos hquote]
        · next hquote =>
          have hk := (Prod.mk.inj (Prod.mk.inj hf).2).1
          rw [if_neg hbrace, if_neg hquote, countWhile_settle h (by omega)]
          exact hf
  case cons.quote =>
      rw [next_quote] at hf ⊢
      dsimp only at hf ⊢
      have hsize : contentSize v 0 (c :: cs) < n + 1 := by
        by_cases hzero : contentSize v 0 (c :: cs) = 0
        · omega
        · rw [if_pos (by simpa using hzero)] at hf
          have hk := (Prod.mk.inj (Prod.mk.inj hf).2).1
          have := hcontent (Prod.mk.inj hf).1.symm ⟨v, outer, rfl⟩
          omega
      rw [contentSize_settle (.cons c h) hsize, ← encodingMark_agree h]
      exact hf

end Lexeme

end InteropStubs
