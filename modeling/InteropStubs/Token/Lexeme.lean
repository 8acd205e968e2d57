import InteropStubs.Token.Basic
import InteropStubs.Token.Directive

/-!
# Lexemes

A text is cut into lexemes from left to right. `Lexeme.next` looks at a character and what follows
it and says which lexeme begins there and how many more characters belong to it; it always finds
one, since a character that begins nothing else is a broken lexeme of its own. So the cutting is a
single pass over the characters, and the lexemes make up the whole text.

What begins somewhere depends on whether the place lies in a string, in a hole of a string or in
neither. A pass keeps a stack of `Surrounding`s for that.
-/

namespace InteropStubs

/-- What a lexeme is: a piece of a gap or a token. -/
inductive Shape where
  | blank
  | comment
  | directive
  | token (kind : Token.Kind)
deriving DecidableEq, Repr

/-- A lexeme. -/
structure Lexeme where
  shape : Shape
  text : List Char
deriving DecidableEq, Repr

/-- What lies around a place in a string with holes. -/
inductive Surrounding where
  /-- The string itself; it may take backslashes as they are. -/
  | quote (isVerbatim : Bool)
  /-- A hole with this many open brackets and question marks that wait for their colon. -/
  | hole (brackets questions : Nat)
  /-- A hole behind the colon that begins its format. -/
  | format
deriving DecidableEq, Repr

namespace Lexeme

open Text Scan

/-- What is reported for text that is no token. -/
def brokenName : String := "ERROR"

/-- Text that is no token. -/
def broken : Shape := .token (.broken brokenName)

/-! ### Marks -/

/-- The marks of three and of two characters, longest first. A closing angle bracket is followed
by another one only in its own right, so that nested type arguments close one at a time. -/
def longMarks : List String := [
  "<<=", "??=",
  "::", "=>", "==", "!=", "<=", ">=", "&&", "||", "??", "++", "--", "+=", "-=", "*=", "/=", "%=",
  "&=", "|=", "^=", "->", "<<", ".."]

/-- The marks of one character. -/
def shortMarks : List Char :=
  ['{', '}'] ++ "()[]<>;:,.?=+-*/%&|^!~".toList

/-- A mark that begins with `c` in front of `cs`. -/
def mark (c : Char) (cs : List Char) : Shape × Nat :=
  match longMarks.find? fun m => m.toList.isPrefixOf (c :: cs) with
  | some m => (.token .mark, m.toList.length - 1)
  | none => if shortMarks.contains c then (.token .mark, 0) else (broken, 0)

/-! ### Strings with holes -/

/-- The beginning of a string with holes, `cs` from its first dollar sign or `@` on: its size, and
whether it is verbatim. -/
def opening? (cs : List Char) : Option (Nat × Bool) :=
  let dollars := countWhile (· == '$') cs
  match cs with
  | '@' :: rest =>
    let more := countWhile (· == '$') rest
    if more != 0 && (rest.drop more).head? == some '"' then some (more + 2, true) else none
  | _ =>
    if dollars == 0 then none
    else match cs.drop dollars with
    | '@' :: '"' :: _ => some (dollars + 2, true)
    | '"' :: _ => some (dollars + 1, false)
    | _ => none

/-- Whether dollar signs and three quotes or more begin a string here. -/
def opensRaw (cs : List Char) : Bool :=
  let dollars := countWhile (· == '$') cs
  dollars != 0 && decide (3 ≤ countWhile (· == '"') (cs.drop dollars))

/-- A string between three quotes or more that begins with dollar signs. Its holes are not looked
at. -/
def rawWithHoles? (cs : List Char) : Option Nat :=
  let dollars := countWhile (· == '$') cs
  let quotes := countWhile (· == '"') (cs.drop dollars)
  if opensRaw cs then literal cs (dollars + quotes) (rawRest? quotes 0) else none

/-- How much of a string stands in front of its next hole or its end, where `skip` characters are
still to pass. A doubled brace is no hole. -/
def contentSize (isVerbatim : Bool) : (skip : Nat) → List Char → Nat
  | _, [] => 0
  | skip + 1, _ :: cs => contentSize isVerbatim skip cs + 1
  | 0, '{' :: '{' :: cs => contentSize isVerbatim 1 ('{' :: cs) + 1
  | 0, '{' :: _ => 0
  | 0, '"' :: '"' :: cs =>
    if isVerbatim then contentSize isVerbatim 1 ('"' :: cs) + 1 else 0
  | 0, '"' :: _ => 0
  | 0, '\n' :: cs => if isVerbatim then contentSize isVerbatim 0 cs + 1 else 0
  | 0, '\\' :: cs =>
    if isVerbatim then contentSize isVerbatim 0 cs + 1
    else match escape? cs with
    | some size => contentSize isVerbatim size cs + 1
    | none => 0
  | 0, _ :: cs => contentSize isVerbatim 0 cs + 1

/-- A character that means nothing in the content of a string with holes is passed over. -/
theorem contentSize_of_ne {isVerbatim : Bool} {c : Char} (hbrace : c ≠ '{') (hquote : c ≠ '"') (hbreak : c ≠ '\n')
    (hescape : c ≠ '\\') (cs : List Char) :
    contentSize isVerbatim 0 (c :: cs) = contentSize isVerbatim 0 cs + 1 := by
  rw [contentSize]
  · exact fun _ heq => absurd heq hbrace
  · exact hbrace
  · exact fun _ heq => absurd heq hquote
  · exact hquote
  · exact hbreak
  · exact hescape

/-! ### Code -/

/-- The lexeme that begins with `c` in front of `cs` outside of strings, and how many characters
of `cs` it takes. -/
def first (c : Char) (cs : List Char) : Shape × Nat :=
  let text := c :: cs
  if isBlank c then (.blank, countWhile isBlank cs)
  else if let some size := comment? text then (.comment, size - 1)
  else if let some size := word? text then (.token .word, size - 1)
  else if let some size := number? text then (.token .number, size - 1)
  else if let some size := (string? text).or (rawWithHoles? text) then (.token .string, size - 1)
  else if opensRaw text then (broken, cs.length)
  else if let some (size, _) := opening? text then (.token .openingQuote, size - 1)
  else match c with
  | '#' =>
    match Directive.extent cs with
    | .trivia size => (.directive, size)
    | .enclosing size => (.token .conditional, size)
    | .shebang size => (.token .shebang, size)
    | .cutOff name size => (.token (.broken ("preproc_" ++ name)), size)
    | .malformed => (broken, 0)
  | '\x27' =>
    match characterRest? cs with
    | some size => (.token .character, size)
    | none => (broken, 0)
  | '"' => (broken, cs.length)
  | '/' => if cs.head? == some '*' then (broken, cs.length) else mark c cs
  | _ => mark c cs

/-- Blanks next to each other are one lexeme. -/
theorem first_of_isBlank {c : Char} (h : isBlank c = true) (cs : List Char) :
    first c cs = (.blank, countWhile isBlank cs) :=
  if_pos h

/-! ### Surroundings -/

/-- The surroundings behind a lexeme `c :: taken` of code, `cs` following it. -/
def behindCode (around : List Surrounding) (shape : Shape) (c : Char) (taken cs : List Char) :
    List Surrounding :=
  match shape, around with
  | .token .openingQuote, _ => .quote ((c :: taken).contains '@') :: around
  | .token .mark, .hole brackets questions :: outer =>
    match c, taken with
    | '(', _ | '[', _ | '{', _ => .hole (brackets + 1) questions :: outer
    | ')', _ | ']', _ => .hole (brackets - 1) questions :: outer
    | '}', _ => if brackets == 0 then outer else .hole (brackets - 1) questions :: outer
    | '?', [] =>
      if brackets == 0 && cs.head? != some '.' then .hole 0 (questions + 1) :: outer else around
    | ':', [] =>
      if brackets != 0 then around
      else if questions == 0 then .format :: outer
      else .hole 0 (questions - 1) :: outer
    | _, _ => around
  | _, _ => around

/-- The lexeme that begins with `c` in front of `cs`, how many characters of `cs` it takes, and
the surroundings behind it. Text that cannot stand in a string ends all strings. -/
def next (around : List Surrounding) (c : Char) (cs : List Char) :
    Shape × Nat × List Surrounding :=
  match around with
  | .quote isVerbatim :: outer =>
    let size := contentSize isVerbatim 0 (c :: cs)
    if size != 0 then (.token .content, size - 1, around)
    else if c == '{' then (.token .mark, 0, .hole 0 0 :: around)
    else if c == '"' then (.token .closingQuote, encodingMark cs, outer)
    else (broken, 0, [])
  | .format :: outer =>
    if c == '}' then (.token .mark, 0, outer)
    else if c == '"' then (broken, 0, [])
    else (.token .content, countWhile (fun d => d != '}' && d != '"') cs, around)
  | .hole .. :: _ | [] =>
    let (shape, size) := first c cs
    (shape, size, behindCode around shape c (cs.take size) (cs.drop size))

/-- The lexemes of a text in some surroundings, where `skip` characters of the current one are
still to pass. -/
def cut (around : List Surrounding) : (skip : Nat) → List Char → List Lexeme
  | _, [] => []
  | skip + 1, _ :: cs => cut around skip cs
  | 0, c :: cs =>
    let (shape, size, behind) := next around c cs
    ⟨shape, c :: cs.take size⟩ :: cut behind size cs

/-- The lexemes of a text. -/
def ofChars (cs : List Char) : List Lexeme :=
  cut [] 0 cs

end Lexeme

end InteropStubs
