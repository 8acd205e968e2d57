import InteropStubs.Diagnostic
import InteropStubs.Text.Characters

/-!
# Positions

Where a character of a text is reported to stand. Lines end at line feeds only. Columns count
characters from the beginning of the line, with one exception: on the line of the first token of a
file, if blanks precede that token on the line, they count the bytes of the UTF-8 form.
-/

namespace InteropStubs.Text

/-- The end of a text from the last line break on, without the line break. -/
def lastLine (cs : List Char) : List Char :=
  (cs.reverse.takeWhile (· != '\n')).reverse

/-- The number of bytes of a text in UTF-8. -/
def utf8Length : List Char → Nat
  | [] => 0
  | c :: cs => c.utf8Size + utf8Length cs

/-- The offset of the first token of a text, comments and directives counted as tokens. -/
def firstTokenOffset (cs : List Char) : Nat :=
  (cs.takeWhile isBlank).length

/-- The location of the character at an offset. -/
def locate (cs : List Char) (offset : Nat) : Location :=
  let before := cs.take offset
  let stretch := lastLine before
  let lineStart := before.length - stretch.length
  { line := 1 + before.count '\n'
    column := if lineStart < firstTokenOffset cs then utf8Length stretch else stretch.length }

end InteropStubs.Text
