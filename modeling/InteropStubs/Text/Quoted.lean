import InteropStubs.Text.Characters
import InteropStubs.Text.UnprintableTable

/-!
# Quoted text

How a piece of user input is shown in a message: in single quotes, or in double quotes if it holds
a single quote and no double quote. Line breaks, tabs, backslashes and the quote itself are escaped
by a backslash, and so is what has no printed form, by its number in two, four or eight
hexadecimal digits.
-/

namespace InteropStubs.Text

/-- Whether a character has a printed form. -/
def isPrintable (c : Char) : Bool :=
  decide (0x20 ≤ c.toNat) && c.toNat != 0x7F && !inRanges unprintableRanges c

/-- A number in hexadecimal, with at least `width` digits. -/
def hexadecimal (width n : Nat) : List Char :=
  let digits := Nat.toDigits 16 n
  List.replicate (width - digits.length) '0' ++ digits

/-- A character between the given quotes. -/
def quotedChar (quote c : Char) : List Char :=
  if c == quote || c == '\\' then ['\\', c]
  else if c == '\n' then ['\\', 'n']
  else if c == '\r' then ['\\', 'r']
  else if c == '\t' then ['\\', 't']
  else if isPrintable c then [c]
  else if c.toNat < 0x100 then '\\' :: 'x' :: hexadecimal 2 c.toNat
  else if c.toNat < 0x10000 then '\\' :: 'u' :: hexadecimal 4 c.toNat
  else '\\' :: 'U' :: hexadecimal 8 c.toNat

/-- A text in quotes. -/
def quoted (text : String) : String :=
  let cs := text.toList
  let quote := if cs.contains '\x27' && !cs.contains '\x22' then '\x22' else '\x27'
  String.ofList (quote :: cs.flatMap (quotedChar quote) ++ [quote])

end InteropStubs.Text
