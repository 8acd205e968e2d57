import InteropStubs.Text.Characters

/-!
# Scanning

The sizes of the smallest pieces of a text: words, numbers, literals, comments and gaps. A scanner
looks at the beginning of a list of characters and says how many of them its piece takes, or that
none is there.
-/

namespace InteropStubs.Scan

open Text

/-- How many characters at the beginning have a property. -/
def countWhile (p : Char → Bool) (cs : List Char) : Nat :=
  (cs.takeWhile p).length

/-! ### Gaps -/

/-- A block comment behind its opening mark. -/
def blockRest? : List Char → Option Nat
  | [] => none
  | '*' :: '/' :: _ => some 2
  | _ :: cs => (blockRest? cs).map (· + 1)

/-- A comment. A line comment stops in front of its line break. -/
def comment? : List Char → Option Nat
  | '/' :: '/' :: cs => some (countWhile (fun c => c != '\n' && c != '\r') cs + 2)
  | '/' :: '*' :: cs => (blockRest? cs).map (· + 2)
  | _ => none

/-- A gap and whether a comment is in it. -/
structure Gap where
  size : Nat
  hasComment : Bool
deriving DecidableEq, Repr

/-- The blanks among `isBlank` and the comments at the beginning, where at most `bound` of them
are counted. -/
def gapOf (isBlank : Char → Bool) : (bound : Nat) → List Char → Gap
  | 0, _ => ⟨0, false⟩
  | _, [] => ⟨0, false⟩
  | bound + 1, c :: cs =>
    if isBlank c then
      let rest := gapOf isBlank bound cs
      ⟨rest.size + 1, rest.hasComment⟩
    else
      match comment? (c :: cs) with
      | some size => ⟨(gapOf isBlank bound ((c :: cs).drop size)).size + size, true⟩
      | none => ⟨0, false⟩

/-- The blanks and comments at the beginning. -/
def gap (cs : List Char) : Gap :=
  gapOf isBlank cs.length cs

/-- The blanks and comments at the beginning up to the line break. -/
def gapInLine (cs : List Char) : Gap :=
  gapOf (fun c => isBlank c && c != '\n') cs.length cs

/-! ### Words -/

/-- An escaped character of a word behind its backslash: four or eight digits. -/
def wordEscape? : List Char → Option Nat
  | 'u' :: cs => if decide (4 ≤ cs.length) && (cs.take 4).all isHexDigit then some 5 else none
  | 'U' :: cs => if decide (8 ≤ cs.length) && (cs.take 8).all isHexDigit then some 9 else none
  | _ => none

/-- The rest of a word, where `skip` characters of an escape are still to pass. -/
def wordRest : (skip : Nat) → List Char → Nat
  | _, [] => 0
  | skip + 1, _ :: cs => wordRest skip cs + 1
  | 0, '\\' :: cs =>
    match wordEscape? cs with
    | some size => wordRest size cs + 1
    | none => 0
  | 0, c :: cs => if isIdentifierContinue c then wordRest 0 cs + 1 else 0

/-- Outside of escapes a word goes on as long as its characters continue one. -/
theorem wordRest_of_ne {c : Char} (h : c ≠ '\\') (cs : List Char) :
    wordRest 0 (c :: cs) = if isIdentifierContinue c then wordRest 0 cs + 1 else 0 := by
  rw [wordRest]
  exact h

/-- A word without a leading `@`. -/
def plainWord? : List Char → Option Nat
  | [] => none
  | '\\' :: cs =>
    match wordEscape? cs with
    | some size => some (wordRest size cs + 1)
    | none => none
  | c :: cs => if isIdentifierStart c then some (wordRest 0 cs + 1) else none

/-- A word. -/
def word? : List Char → Option Nat
  | '@' :: cs => (plainWord? cs).map (· + 1)
  | cs => plainWord? cs

/-! ### Numbers -/

/-- Digits, with underscores between them. -/
def digits (isDigit : Char → Bool) (cs : List Char) : Nat :=
  let run := cs.takeWhile fun c => isDigit c || c == '_'
  (run.reverse.dropWhile (· == '_')).length

/-- Decimal digits that begin with a digit. -/
def decimal (cs : List Char) : Nat :=
  match cs with
  | c :: _ => if c.isDigit then digits Char.isDigit cs else 0
  | [] => 0

/-- The letters that say that an integer is unsigned, long or both. -/
def integerMark : List Char → Nat
  | a :: rest =>
    let isU c := c == 'u' || c == 'U'
    let isL c := c == 'l' || c == 'L'
    let second := match rest with
      | b :: _ => if (isU a && isL b) || (isL a && isU b) then 1 else 0
      | [] => 0
    if isU a || isL a then second + 1 else 0
  | [] => 0

/-- An integer. -/
def integer? (cs : List Char) : Option Nat :=
  let prefixed := match cs with
    | '0' :: x :: rest =>
      if x == 'x' || x == 'X' then digits isHexDigit rest
      else if x == 'b' || x == 'B' then digits (fun c => c == '0' || c == '1') rest
      else 0
    | _ => 0
  let body := if prefixed == 0 then decimal cs else prefixed + 2
  if body == 0 then none else some (body + integerMark (cs.drop body))

/-- An exponent. -/
def exponent : List Char → Nat
  | e :: cs =>
    if e == 'e' || e == 'E' then
      let sign := match cs with
        | '+' :: _ => 1
        | '-' :: _ => 1
        | _ => 0
      match cs.drop sign with
      | c :: rest =>
        if c.isDigit then countWhile (fun d => d.isDigit || d == '_') rest + sign + 2 else 0
      | [] => 0
    else 0
  | [] => 0

/-- A number with a fraction, an exponent or the letter of a type that has them. -/
def real? (cs : List Char) : Option Nat :=
  let whole := decimal cs
  let fraction := match cs.drop whole with
    | '.' :: rest => if decimal rest == 0 then 0 else decimal rest + 1
    | _ => 0
  let size := whole + fraction
  if size == 0 then none
  else
    let power := exponent (cs.drop size)
    let mark := match cs.drop (size + power) with
      | c :: _ => if "fFdDmM".toList.contains c then 1 else 0
      | [] => 0
    if fraction + power + mark == 0 then none else some (size + power + mark)

/-- A number: whichever kind takes more. -/
def number? (cs : List Char) : Option Nat :=
  match integer? cs, real? cs with
  | some m, some n => some (max m n)
  | some m, none => some m
  | none, n => n

/-! ### Literals -/

/-- An escape sequence behind its backslash. -/
def escape? : List Char → Option Nat
  | [] => none
  | 'x' :: cs =>
    let size := countWhile isHexDigit (cs.take 4)
    if size < 2 then none else some (size + 1)
  | c :: cs =>
    if c == 'u' || c == 'U' then wordEscape? (c :: cs)
    else if "abefnrtv\x27\"\\?0".toList.contains c then some 1
    else none

/-- A character literal behind its opening quote. Blanks and comments may stand in front of the
closing one. -/
def characterRest? (cs : List Char) : Option Nat :=
  let value := match cs with
    | '\\' :: rest => (escape? rest).map (· + 1)
    | c :: _ => if c == '\x27' then none else some 1
    | [] => none
  value.bind fun size =>
    let blank := (gap (cs.drop size)).size
    if (cs.drop (size + blank)).head? == some '\x27' then some (size + blank + 1) else none

/-- A string behind its opening quote. A line break can only stand in front of the closing quote,
with nothing but blanks and comments between. -/
def stringRest? : List Char → Option Nat
  | [] => none
  | '"' :: _ => some 1
  | '\n' :: cs =>
    let blank := (gap cs).size
    if (cs.drop blank).head? == some '"' then some (blank + 2) else none
  | '\\' :: _ :: cs => (stringRest? cs).map (· + 2)
  | _ :: cs => (stringRest? cs).map (· + 1)

/-- The same for a string that takes backslashes as they are and doubles its quotes. -/
def verbatimRest? : List Char → Option Nat
  | [] => none
  | '"' :: '"' :: cs => (verbatimRest? cs).map (· + 2)
  | '"' :: _ => some 1
  | _ :: cs => (verbatimRest? cs).map (· + 1)

/-- The same for a string that ends with as many quotes as it begins with; `run` counts the quotes
directly in front. -/
def rawRest? (quotes : Nat) : (run : Nat) → List Char → Option Nat
  | _, [] => none
  | run, '"' :: cs =>
    if run + 1 = quotes then some 1 else (rawRest? quotes (run + 1) cs).map (· + 1)
  | _, _ :: cs => (rawRest? quotes 0 cs).map (· + 1)

/-- The mark that says how a string literal is encoded. -/
def encodingMark : List Char → Nat
  | 'u' :: '8' :: _ => 2
  | 'U' :: '8' :: _ => 2
  | _ => 0

/-- A string literal, its encoding mark included, given how it goes on behind the `lead`
characters that open it. -/
def literal (cs : List Char) (lead : Nat) (rest? : List Char → Option Nat) : Option Nat :=
  (rest? (cs.drop lead)).map fun size =>
    lead + size + encodingMark (cs.drop (lead + size))

/-- A string without holes that opens with a quote or with `@` and a quote. -/
def string? (cs : List Char) : Option Nat :=
  match cs with
  | '@' :: '"' :: _ => literal cs 2 verbatimRest?
  | '"' :: rest =>
    let quotes := countWhile (· == '"') cs
    if 3 ≤ quotes then literal cs quotes (rawRest? quotes 0)
    else (stringRest? rest).map fun size => size + 1 + encodingMark (rest.drop size)
  | _ => none

end InteropStubs.Scan
