import InteropStubs.Proofs.Token.Munch
import Mathlib.Data.List.Find

/-!
# Texts that agree up to a stop

Two texts agree if they begin with the same characters up to a line break, a semicolon, a brace or a closing
angle bracket (`Scan.Agree`). Words and numbers have no such character in them and marks have none but at their
ends, and so their scanners see no difference between the texts.

* `Scan.word?_agree`, `Scan.number?_agree`, `Lexeme.mark_agree`: what is read of texts that agree.
-/

namespace InteropStubs

open Text Scan

/-- The characters that are in no word or number, nor between the ends of a mark. -/
def Text.stops : List Char :=
  ['\n', ';', '{', '}', '>']

/-- What holds at every border is checked border by border. -/
theorem Text.forall_mem_stops {p : Char → Prop} :
    (∀ d ∈ stops, p d) ↔ p '\n' ∧ p ';' ∧ p '{' ∧ p '}' ∧ p '>' := by
  simp [stops]

/-- Whether no character is one of them. -/
def Text.isFree (cs : List Char) : Bool :=
  cs.all fun c => !stops.contains c

namespace Scan

/-- Two texts have `n` characters and the stop behind them in common. -/
inductive Agree : Nat → List Char → List Char → Prop
  | stop {d : Char} (hd : d ∈ stops) (cs ds : List Char) : Agree 0 (d :: cs) (d :: ds)
  | cons (c : Char) {n : Nat} {cs ds : List Char} (h : Agree n cs ds) : Agree (n + 1) (c :: cs) (c :: ds)

variable {n k : Nat} {cs ds : List Char} {p : Char → Bool}

namespace Agree

/-- Two texts with a common front agree up to the border that follows it. -/
theorem append {d : Char} (hd : d ∈ stops) (front rest rest' : List Char) :
    Agree front.length (front ++ d :: rest) (front ++ d :: rest') := by
  induction front with
  | nil => exact .stop hd rest rest'
  | cons c front ih => exact .cons c ih

theorem symm (h : Agree n cs ds) : Agree n ds cs := by
  induction h with
  | stop hd => exact .stop hd _ _
  | cons c _ ih => exact .cons c ih

theorem head?_eq (h : Agree n cs ds) : cs.head? = ds.head? := by
  cases h <;> rfl

/-- Behind a part of what they agree on, texts agree on the rest. -/
theorem drop (h : Agree n cs ds) (hk : k ≤ n) : Agree (n - k) (cs.drop k) (ds.drop k) := by
  induction h generalizing k with
  | stop hd cs ds =>
      obtain rfl := Nat.le_zero.mp hk
      exact .stop hd cs ds
  | cons c h ih =>
      cases k with
      | zero => exact .cons c h
      | succ k =>
          rw [Nat.add_sub_add_right]
          exact ih (Nat.le_of_succ_le_succ hk)

/-- Of what they agree on, the border included, texts have the same beginnings. -/
theorem take_eq (h : Agree n cs ds) (hk : k ≤ n + 1) : cs.take k = ds.take k := by
  induction h generalizing k with
  | stop hd cs ds =>
      obtain rfl | rfl : k = 0 ∨ k = 1 := by omega
      · rfl
      · rfl
  | cons c h ih =>
      cases k with
      | zero => rfl
      | succ k => rw [List.take_succ_cons, List.take_succ_cons, ih (Nat.le_of_succ_le_succ hk)]

/-- The border where texts stop agreeing is still in them. -/
theorem lt_length (h : Agree n cs ds) : n < cs.length := by
  induction h with
  | stop => exact Nat.succ_pos _
  | cons c _ ih => exact Nat.succ_lt_succ ih

/-- What is taken while it has a property that no stop has. -/
theorem takeWhile_eq (h : Agree n cs ds) (hp : ∀ d ∈ stops, p d = false) :
    cs.takeWhile p = ds.takeWhile p ∧ (cs.takeWhile p).length ≤ n := by
  induction h with
  | stop hd => simp [hp _ hd]
  | cons c _ ih =>
      simp only [List.takeWhile_cons]
      split
      · exact ⟨congrArg (c :: ·) ih.1, Nat.succ_le_succ ih.2⟩
      · exact ⟨rfl, Nat.zero_le _⟩

/-- A number of characters with a property that no stop has. -/
theorem all_take_eq (h : Agree n cs ds) (hp : ∀ d ∈ stops, p d = false) (k : Nat) :
    (decide (k ≤ cs.length) && (cs.take k).all p) = (decide (k ≤ ds.length) && (ds.take k).all p) ∧
      ((decide (k ≤ cs.length) && (cs.take k).all p) = true → k ≤ n) := by
  induction h generalizing k with
  | stop hd =>
      cases k with
      | zero => simp
      | succ k => simp [hp _ hd]
  | cons c _ ih =>
      cases k with
      | zero => simp
      | succ k =>
          obtain ⟨heq, hle⟩ := ih k
          simp only [List.length_cons, Nat.add_le_add_iff_right, List.take_succ_cons, List.all_cons]
          cases p c with
          | false => simp
          | true => exact ⟨by simpa using heq, fun hall => by simpa using hle (by simpa using hall)⟩

/-- A text at the beginning that has no stops but at its end. -/
theorem isPrefixOf_eq (h : Agree n cs ds) {m : List Char} (hm : isFree m.dropLast = true) :
    m.isPrefixOf cs = m.isPrefixOf ds := by
  induction m generalizing n cs ds with
  | nil => simp
  | cons a m ih =>
      cases m with
      | nil =>
          obtain ⟨c, cs, rfl⟩ := List.exists_cons_of_length_pos (Nat.zero_lt_of_lt h.lt_length)
          obtain ⟨_, ds, rfl⟩ := List.exists_cons_of_length_pos (Nat.zero_lt_of_lt h.symm.lt_length)
          obtain rfl := Option.some.inj h.head?_eq
          simp [List.isPrefixOf]
      | cons b m =>
          obtain ⟨ha, hm⟩ : a ∉ stops ∧ isFree (b :: m).dropLast = true := by simpa [isFree] using hm
          cases h with
          | stop hd =>
              have hne : (a == _) = false := beq_eq_false_iff_ne.mpr fun heq => ha (heq ▸ hd)
              simp [List.isPrefixOf, hne]
          | cons c h =>
              rw [List.isPrefixOf_cons_cons, List.isPrefixOf_cons_cons, ih h hm]

/-- A search among marks finds the same one. -/
theorem find?_isPrefixOf_eq (h : Agree n cs ds) {ms : List String}
    (hms : ∀ m ∈ ms, isFree m.toList.dropLast = true) :
    (ms.find? fun m => m.toList.isPrefixOf cs) = ms.find? fun m => m.toList.isPrefixOf ds :=
  List.find?_congr fun m hm => h.isPrefixOf_eq (hms m hm)

end Agree

/-! ### Words -/

/-- No border is a digit of any base. -/
theorem isHexDigit_of_mem_stops : ∀ d ∈ stops, isHexDigit d = false :=
  forall_mem_stops.mpr (by decide)

/-- A word ends in front of every border. -/
theorem endsWord_of_mem_stops : ∀ d ∈ stops, endsWord d = true :=
  forall_mem_stops.mpr (by decide)

theorem wordEscape?_of_ne {c : Char} (hu : c ≠ 'u') (hU : c ≠ 'U') (cs : List Char) :
    wordEscape? (c :: cs) = none := by
  unfold wordEscape?
  split <;> simp_all

/-- An escape of a word stands in front of the border. -/
theorem wordEscape?_agree (h : Agree n cs ds) :
    wordEscape? cs = wordEscape? ds ∧ ∀ size, wordEscape? cs = some size → size ≤ n := by
  have hescape {n : Nat} {cs ds : List Char} (h : Agree n cs ds) (k : Nat) :
      let size cs := if decide (k ≤ cs.length) && (cs.take k).all isHexDigit then some (k + 1) else none
      size cs = size ds ∧ ∀ m, size cs = some m → m ≤ n + 1 := by
    obtain ⟨heq, hle⟩ := h.all_take_eq isHexDigit_of_mem_stops k
    refine ⟨by simp only [heq], fun m hm => ?_⟩
    obtain ⟨hall, hm⟩ := Option.ite_none_right_eq_some.mp hm
    exact Option.some.inj hm ▸ Nat.succ_le_succ (hle hall)
  cases h with
  | @stop d hd =>
      have hne : ∀ d ∈ stops, d ≠ 'u' ∧ d ≠ 'U' := forall_mem_stops.mpr (by decide)
      rw [wordEscape?_of_ne (hne d hd).1 (hne d hd).2, wordEscape?_of_ne (hne d hd).1 (hne d hd).2]
      exact ⟨rfl, nofun⟩
  | cons c h =>
      by_cases hu : c = 'u'
      · exact hu ▸ hescape h 4
      · by_cases hU : c = 'U'
        · exact hU ▸ hescape h 8
        · rw [wordEscape?_of_ne hu hU, wordEscape?_of_ne hu hU]
          exact ⟨rfl, nofun⟩

/-- A word goes on alike, also in the middle of an escape. -/
theorem wordRest_agree (h : Agree n cs ds) (hk : k ≤ n) : wordRest k cs = wordRest k ds := by
  induction h generalizing k with
  | @stop d hd =>
      obtain rfl := Nat.le_zero.mp hk
      obtain ⟨hcontinue, hne⟩ : isIdentifierContinue d = false ∧ d ≠ '\\' := by
        simpa [endsWord] using endsWord_of_mem_stops d hd
      rw [wordRest_of_ne hne, wordRest_of_ne hne, hcontinue]
      rfl
  | cons c h ih =>
      cases k with
      | succ k => rw [wordRest, wordRest, ih (Nat.le_of_succ_le_succ hk)]
      | zero =>
          by_cases hc : c = '\\'
          · subst hc
            obtain ⟨heq, hle⟩ := wordEscape?_agree h
            rw [wordRest, wordRest, ← heq]
            split
            · next size hsize => rw [ih (hle size hsize)]
            · rfl
          · rw [wordRest_of_ne hc, wordRest_of_ne hc, ih (Nat.zero_le _)]

theorem plainWord?_of_ne {c : Char} (h : c ≠ '\\') (cs : List Char) :
    plainWord? (c :: cs) = if isIdentifierStart c then some (wordRest 0 cs + 1) else none := by
  rw [plainWord?]
  exact h

/-- A word without its mark is the same one. -/
theorem plainWord?_agree (h : Agree n cs ds) : plainWord? cs = plainWord? ds := by
  cases h with
  | @stop d hd =>
      have hnone : ∀ d ∈ stops, d ≠ '\\' ∧ isIdentifierStart d = false :=
        forall_mem_stops.mpr (by decide)
      rw [plainWord?_of_ne (hnone d hd).1, plainWord?_of_ne (hnone d hd).1, (hnone d hd).2]
      rfl
  | cons c h =>
      by_cases hc : c = '\\'
      · subst hc
        obtain ⟨heq, hle⟩ := wordEscape?_agree h
        rw [plainWord?, plainWord?, ← heq]
        split
        · next size hsize => rw [wordRest_agree h (hle size hsize)]
        · rfl
      · rw [plainWord?_of_ne hc, plainWord?_of_ne hc, wordRest_agree h (Nat.zero_le _)]

/-- **Words** of texts that agree. -/
theorem word?_agree (h : Agree n cs ds) : word? cs = word? ds := by
  cases h with
  | @stop d hd cs ds =>
      have hne : ∀ d ∈ stops, d ≠ '@' := forall_mem_stops.mpr (by decide)
      rw [word?_of_ne (hne d hd), word?_of_ne (hne d hd)]
      exact plainWord?_agree (.stop hd cs ds)
  | cons c h =>
      by_cases hc : c = '@'
      · subst hc
        rw [word?, word?, plainWord?_agree h]
      · rw [word?_of_ne hc, word?_of_ne hc]
        exact plainWord?_agree (.cons c h)

/-! ### Numbers -/

/-- A run of digits ends in front of the border. -/
theorem digits_agree (h : Agree n cs ds) (hp : ∀ d ∈ stops, p d = false) :
    digits p cs = digits p ds ∧ digits p cs ≤ n := by
  have hstop : ∀ d ∈ stops, (p d || d == '_') = false := by
    have hne : ∀ d ∈ stops, (d == '_') = false := forall_mem_stops.mpr (by decide)
    exact fun d hd => by simp only [hp d hd, hne d hd, Bool.or_self]
  obtain ⟨heq, hle⟩ := h.takeWhile_eq hstop
  refine ⟨by simp only [digits, heq], ?_⟩
  have hdrop := (List.dropWhile_suffix (l := (cs.takeWhile fun c => p c || c == '_').reverse)
    (· == '_')).length_le
  rw [List.length_reverse] at hdrop
  exact Nat.le_trans hdrop hle

theorem isDigit_of_mem_stops : ∀ d ∈ stops, d.isDigit = false :=
  forall_mem_stops.mpr (by decide)

/-- A decimal number does so, too. -/
theorem decimal_agree (h : Agree n cs ds) : decimal cs = decimal ds ∧ decimal cs ≤ n := by
  obtain ⟨heq, hle⟩ := digits_agree h isDigit_of_mem_stops
  cases h with
  | @stop d hd => simp [decimal, isDigit_of_mem_stops d hd]
  | cons c h =>
      simp only [decimal]
      split
      · exact ⟨heq, hle⟩
      · exact ⟨rfl, Nat.zero_le _⟩

/-- The letters behind an integer are the same ones. -/
theorem integerMark_agree (h : Agree n cs ds) : integerMark cs = integerMark ds := by
  have hletter : ∀ d ∈ stops,
      (d == 'u' || d == 'U') = false ∧ (d == 'l' || d == 'L') = false := forall_mem_stops.mpr (by decide)
  cases h with
  | @stop d hd =>
      obtain ⟨hu, hl⟩ := hletter d hd
      simp only [integerMark, hu, hl]
      rfl
  | cons c h => cases h <;> rfl

/-- The digits behind `0x` or `0b`. -/
def prefixedDigits : List Char → Nat
  | '0' :: x :: rest =>
    if x == 'x' || x == 'X' then digits isHexDigit rest
    else if x == 'b' || x == 'B' then digits (fun c => c == '0' || c == '1') rest
    else 0
  | _ => 0

/-- An integer by its body and by the letters behind it. -/
theorem integer?_eq (cs : List Char) :
    integer? cs =
      let body := if prefixedDigits cs == 0 then decimal cs else prefixedDigits cs + 2
      if body == 0 then none else some (body + integerMark (cs.drop body)) :=
  rfl

theorem prefixedDigits_of_ne {c : Char} (h : c ≠ '0') (cs : List Char) : prefixedDigits (c :: cs) = 0 := by
  unfold prefixedDigits
  split <;> simp_all

/-- Digits behind a prefix stand in front of the border, and so does the prefix. -/
theorem prefixedDigits_agree (h : Agree n cs ds) :
    prefixedDigits cs = prefixedDigits ds ∧ (prefixedDigits cs ≠ 0 → prefixedDigits cs + 2 ≤ n) := by
  cases h with
  | @stop d hd =>
      have hne : ∀ d ∈ stops, d ≠ '0' := forall_mem_stops.mpr (by decide)
      rw [prefixedDigits_of_ne (hne d hd), prefixedDigits_of_ne (hne d hd)]
      exact ⟨rfl, fun h => absurd rfl h⟩
  | cons c h =>
      by_cases hc : c = '0'
      · subst hc
        cases h with
        | @stop d hd =>
            have hne : ∀ d ∈ stops, (d == 'x' || d == 'X') = false ∧ (d == 'b' || d == 'B') = false :=
              forall_mem_stops.mpr (by decide)
            obtain ⟨hx, hb⟩ := hne d hd
            simp [prefixedDigits, hx, hb]
        | cons x h =>
            have hbinary : ∀ d ∈ stops, (d == '0' || d == '1') = false := forall_mem_stops.mpr (by decide)
            obtain ⟨heq, hle⟩ := digits_agree h isHexDigit_of_mem_stops
            obtain ⟨heq', hle'⟩ := digits_agree h hbinary
            simp only [prefixedDigits]
            split
            · exact ⟨heq, fun _ => by omega⟩
            · split
              · exact ⟨heq', fun _ => by omega⟩
              · exact ⟨rfl, fun h => absurd rfl h⟩
      · rw [prefixedDigits_of_ne hc, prefixedDigits_of_ne hc]
        exact ⟨rfl, fun h => absurd rfl h⟩

/-- An integer is the same one. -/
theorem integer?_agree (h : Agree n cs ds) : integer? cs = integer? ds := by
  obtain ⟨hprefixed, hle⟩ := prefixedDigits_agree h
  obtain ⟨hdecimal, hle'⟩ := decimal_agree h
  have hbody : (if prefixedDigits cs == 0 then decimal cs else prefixedDigits cs + 2) ≤ n := by
    split
    · exact hle'
    · next hne => exact hle (by simpa using hne)
  simp only [integer?_eq, ← hprefixed, ← hdecimal, integerMark_agree (h.drop hbody)]

/-- The sign of an exponent. -/
def signSize : List Char → Nat
  | '+' :: _ => 1
  | '-' :: _ => 1
  | _ => 0

/-- The sign of an exponent stands in front of the border. -/
theorem signSize_agree (h : Agree n cs ds) : signSize cs = signSize ds ∧ signSize cs ≤ n := by
  cases h with
  | @stop d hd =>
      have hne : ∀ d ∈ stops, d ≠ '+' ∧ d ≠ '-' := forall_mem_stops.mpr (by decide)
      have hzero (cs : List Char) : signSize (d :: cs) = 0 := by
        unfold signSize
        split <;> simp_all
      rw [hzero, hzero]
      exact ⟨rfl, Nat.zero_le _⟩
  | cons c h =>
      have hsize (cs : List Char) : signSize (c :: cs) = if c = '+' ∨ c = '-' then 1 else 0 := by
        unfold signSize
        split <;> simp_all
      rw [hsize, hsize]
      refine ⟨rfl, ?_⟩
      split <;> omega

/-- The digits of an exponent, with the letter and the sign in front of them. -/
def exponentDigits (sign : Nat) : List Char → Nat
  | c :: rest => if c.isDigit then countWhile (fun d => d.isDigit || d == '_') rest + sign + 2 else 0
  | [] => 0

theorem exponent_cons (e : Char) (cs : List Char) :
    exponent (e :: cs) =
      if e == 'e' || e == 'E' then exponentDigits (signSize cs) (cs.drop (signSize cs)) else 0 :=
  rfl

theorem exponentDigits_agree (h : Agree n cs ds) (sign : Nat) :
    exponentDigits sign cs = exponentDigits sign ds ∧ exponentDigits sign cs ≤ n + sign + 1 := by
  have hstop : ∀ d ∈ stops, (d.isDigit || d == '_') = false := forall_mem_stops.mpr (by decide)
  cases h with
  | @stop d hd => simp [exponentDigits, isDigit_of_mem_stops d hd]
  | cons c h =>
      obtain ⟨heq, hle⟩ := h.takeWhile_eq hstop
      simp only [exponentDigits, countWhile, ← heq, true_and]
      split <;> omega

/-- An exponent ends in front of the border. -/
theorem exponent_agree (h : Agree n cs ds) : exponent cs = exponent ds ∧ exponent cs ≤ n := by
  cases h with
  | @stop d hd =>
      have hne : ∀ d ∈ stops, (d == 'e' || d == 'E') = false := forall_mem_stops.mpr (by decide)
      rw [exponent_cons, exponent_cons, hne d hd]
      exact ⟨rfl, Nat.zero_le _⟩
  | @cons c _ cs ds h =>
      obtain ⟨hsign, hle⟩ := signSize_agree h
      obtain ⟨hdigits, hle'⟩ := exponentDigits_agree (h.drop hle) (signSize cs)
      rw [exponent_cons, exponent_cons, ← hsign, ← hdigits]
      refine ⟨rfl, ?_⟩
      split <;> omega

/-- The fraction of a number. -/
def fraction : List Char → Nat
  | '.' :: rest => if decimal rest == 0 then 0 else decimal rest + 1
  | _ => 0

/-- The letter of a type that has fractions. -/
def realMark : List Char → Nat
  | c :: _ => if "fFdDmM".toList.contains c then 1 else 0
  | [] => 0

/-- A real number by its digits, its exponent and the letter behind it. -/
theorem real?_eq (cs : List Char) :
    real? cs =
      let size := decimal cs + fraction (cs.drop (decimal cs))
      if size == 0 then none
      else
        let power := exponent (cs.drop size)
        let mark := realMark (cs.drop (size + power))
        if fraction (cs.drop (decimal cs)) + power + mark == 0 then none else some (size + power + mark) :=
  rfl

/-- The digits behind a point end in front of the border. -/
theorem fraction_agree (h : Agree n cs ds) : fraction cs = fraction ds ∧ fraction cs ≤ n := by
  have hzero {c : Char} (hc : c ≠ '.') (cs : List Char) : fraction (c :: cs) = 0 := by
    unfold fraction
    split <;> simp_all
  cases h with
  | @stop d hd =>
      have hne : ∀ d ∈ stops, d ≠ '.' := forall_mem_stops.mpr (by decide)
      rw [hzero (hne d hd), hzero (hne d hd)]
      exact ⟨rfl, Nat.zero_le _⟩
  | cons c h =>
      by_cases hc : c = '.'
      · subst hc
        obtain ⟨heq, hle⟩ := decimal_agree h
        simp only [fraction, ← heq, true_and]
        split <;> omega
      · rw [hzero hc, hzero hc]
        exact ⟨rfl, Nat.zero_le _⟩

theorem realMark_agree (h : Agree n cs ds) : realMark cs = realMark ds := by
  cases h <;> rfl

/-- A real number is the same one. -/
theorem real?_agree (h : Agree n cs ds) : real? cs = real? ds := by
  obtain ⟨hdecimal, hle⟩ := decimal_agree h
  obtain ⟨hfraction, hle'⟩ := fraction_agree (h.drop hle)
  have hsize : decimal cs + fraction (cs.drop (decimal cs)) ≤ n := by omega
  obtain ⟨hpower, hle''⟩ := exponent_agree (h.drop hsize)
  have hmark := realMark_agree (h.drop (k := decimal cs + fraction (cs.drop (decimal cs)) +
    exponent (cs.drop (decimal cs + fraction (cs.drop (decimal cs))))) (by omega))
  simp only [real?_eq, ← hdecimal, ← hfraction, ← hpower, ← hmark]

/-- **Numbers** of texts that agree. -/
theorem number?_agree (h : Agree n cs ds) : number? cs = number? ds := by
  rw [number?, number?, integer?_agree h, real?_agree h]

/-! ### Literals -/

theorem encodingMark_agree (h : Agree n cs ds) : encodingMark cs = encodingMark ds := by
  have hzero {c : Char} (hu : c ≠ 'u') (hU : c ≠ 'U') (cs : List Char) : encodingMark (c :: cs) = 0 := by
    unfold encodingMark
    split <;> simp_all
  cases h with
  | @stop d hd =>
      have hne : ∀ d ∈ stops, d ≠ 'u' ∧ d ≠ 'U' := forall_mem_stops.mpr (by decide)
      rw [hzero (hne d hd).1 (hne d hd).2, hzero (hne d hd).1 (hne d hd).2]
  | @cons c _ cs ds h =>
      have heq := h.head?_eq
      by_cases hu : c = 'u' ∨ c = 'U'
      · have hsize (cs : List Char) : encodingMark (c :: cs) = if cs.head? = some '8' then 2 else 0 := by
          unfold encodingMark
          cases cs with
          | nil => rcases hu with rfl | rfl <;> rfl
          | cons d cs => rcases hu with rfl | rfl <;> split <;> simp_all
        rw [hsize, hsize, heq]
      · rw [not_or] at hu
        rw [hzero hu.1 hu.2, hzero hu.1 hu.2]

/-- An escape in a literal stands in front of the border. -/
theorem escape?_agree (h : Agree n cs ds) :
    escape? cs = escape? ds ∧ ∀ size, escape? cs = some size → size ≤ n := by
  have hescape {c : Char} (hc : c ≠ 'x') (cs : List Char) :
      escape? (c :: cs) =
        if c == 'u' || c == 'U' then wordEscape? (c :: cs)
        else if "abefnrtv\x27\"\\?0".toList.contains c then some 1 else none := by
    rw [escape?]
    exact hc
  cases h with
  | @stop d hd =>
      have hne : ∀ d ∈ stops, d ≠ 'x' ∧ (d == 'u' || d == 'U') = false ∧
          "abefnrtv\x27\"\\?0".toList.contains d = false := forall_mem_stops.mpr (by decide)
      obtain ⟨hx, hu, hnone⟩ := hne d hd
      rw [hescape hx, hescape hx, hu, hnone]
      exact ⟨rfl, nofun⟩
  | @cons c n cs ds h =>
      by_cases hc : c = 'x'
      · subst hc
        obtain ⟨heq, hle⟩ := h.takeWhile_eq isHexDigit_of_mem_stops
        have hcount (cs : List Char) : countWhile isHexDigit (cs.take 4) = min 4 (cs.takeWhile isHexDigit).length := by
          rw [countWhile, ← List.take_takeWhile, List.length_take]
        simp only [escape?, hcount, heq]
        refine ⟨trivial, fun size hsize => ?_⟩
        obtain ⟨-, hsize⟩ := Option.ite_none_left_eq_some.mp hsize
        obtain rfl := Option.some.inj hsize
        rw [heq] at hle
        omega
      · rw [hescape hc, hescape hc]
        obtain ⟨heq, hle⟩ := wordEscape?_agree (.cons c h)
        split
        · exact ⟨heq, hle⟩
        · refine ⟨rfl, fun size hsize => ?_⟩
          obtain ⟨-, hsize⟩ := Option.ite_none_right_eq_some.mp hsize
          obtain rfl := Option.some.inj hsize
          exact Nat.succ_le_succ (Nat.zero_le n)

/-- A run of quotes ends in front of the border. -/
theorem quotes_agree (h : Agree n cs ds) :
    countWhile (· == '"') cs = countWhile (· == '"') ds ∧ countWhile (· == '"') cs ≤ n := by
  obtain ⟨heq, hle⟩ := h.takeWhile_eq (p := (· == '"')) (forall_mem_stops.mpr (by decide))
  exact ⟨congrArg List.length heq, hle⟩

end Scan

/-! ### Marks and openings -/

namespace Lexeme

variable {n : Nat} {cs ds : List Char}

/-- **Marks** in front of texts that agree. -/
theorem mark_agree (h : Agree n cs ds) (c : Char) : mark c cs = mark c ds := by
  have hmarks : ∀ m ∈ longMarks, m.toList ≠ [] ∧ isFree m.toList.tail.dropLast = true := by decide
  have hprefix : ∀ m ∈ longMarks, m.toList.isPrefixOf (c :: cs) = m.toList.isPrefixOf (c :: ds) := by
    intro m hm
    obtain ⟨hne, htail⟩ := hmarks m hm
    obtain ⟨a, m', hm'⟩ := List.exists_cons_of_ne_nil hne
    rw [hm', List.tail_cons] at htail
    rw [hm', List.isPrefixOf_cons_cons, List.isPrefixOf_cons_cons, h.isPrefixOf_eq htail]
  rw [mark, mark, List.find?_congr hprefix]

theorem dollars_agree (h : Agree n cs ds) :
    countWhile (· == '$') cs = countWhile (· == '$') ds ∧ countWhile (· == '$') cs ≤ n := by
  obtain ⟨heq, hle⟩ := h.takeWhile_eq (p := (· == '$')) (forall_mem_stops.mpr (by decide))
  exact ⟨congrArg List.length heq, hle⟩

/-- Raw strings are begun alike. -/
theorem opensRaw_agree (h : Agree n cs ds) : opensRaw cs = opensRaw ds := by
  obtain ⟨hdollars, hle⟩ := dollars_agree h
  rw [opensRaw, opensRaw, ← hdollars, (quotes_agree (h.drop hle)).1]

/-- What opens a string with holes behind its dollar signs. -/
def openingBehind? (dollars : Nat) : List Char → Option (Nat × Bool)
  | '@' :: '"' :: _ => some (dollars + 2, true)
  | '"' :: _ => some (dollars + 1, false)
  | _ => none

theorem opening?_of_ne {c : Char} (h : c ≠ '@') (cs : List Char) :
    opening? (c :: cs) =
      let dollars := countWhile (· == '$') (c :: cs)
      if dollars == 0 then none else openingBehind? dollars ((c :: cs).drop dollars) := by
  rw [opening?]
  · rfl
  · exact fun _ heq => h (List.cons.inj heq).1

theorem openingBehind?_agree (h : Agree n cs ds) (dollars : Nat) :
    openingBehind? dollars cs = openingBehind? dollars ds := by
  have hnone {c : Char} (hat : c ≠ '@') (hquote : c ≠ '"') (cs : List Char) :
      openingBehind? dollars (c :: cs) = none := by
    unfold openingBehind?
    split <;> simp_all
  cases h with
  | @stop d hd =>
      have hne : ∀ d ∈ stops, d ≠ '@' ∧ d ≠ '"' := forall_mem_stops.mpr (by decide)
      rw [hnone (hne d hd).1 (hne d hd).2, hnone (hne d hd).1 (hne d hd).2]
  | @cons c _ cs ds h =>
      have heq := h.head?_eq
      by_cases hat : c = '@'
      · have hsize (cs : List Char) : openingBehind? dollars ('@' :: cs) =
            if cs.head? = some '"' then some (dollars + 2, true) else none := by
          cases cs with
          | nil => rfl
          | cons d cs =>
              unfold openingBehind?
              split <;> simp_all
        rw [hat, hsize, hsize, heq]
      · by_cases hquote : c = '"'
        · rw [hquote]
          rfl
        · rw [hnone hat hquote, hnone hat hquote]

/-- The opening of a string with holes is the same one. -/
theorem opening?_agree (h : Agree n cs ds) : opening? cs = opening? ds := by
  have hplain {n : Nat} {c : Char} {cs ds : List Char} (h : Agree n (c :: cs) (c :: ds)) (hc : c ≠ '@') :
      opening? (c :: cs) = opening? (c :: ds) := by
    obtain ⟨hdollars, hle⟩ := dollars_agree h
    simp only [opening?_of_ne hc, ← hdollars, openingBehind?_agree (h.drop hle)]
  cases h with
  | @stop d hd cs ds =>
      have hne : ∀ d ∈ stops, d ≠ '@' := forall_mem_stops.mpr (by decide)
      exact hplain (.stop hd cs ds) (hne d hd)
  | cons c h =>
      by_cases hc : c = '@'
      · subst hc
        obtain ⟨hdollars, hle⟩ := dollars_agree h
        simp only [opening?, ← hdollars, (h.drop hle).head?_eq]
      · exact hplain (.cons c h) hc

end Lexeme

end InteropStubs
