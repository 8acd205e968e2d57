import InteropStubs.Text.DigitTable
import InteropStubs.Text.IdentifierTable

/-!
# Character classes

The blanks that may stand between tokens, the characters of identifiers, and digits.
-/

namespace InteropStubs.Text

/-- The characters that separate tokens: ASCII white space, the no-break space, the byte order
mark and the ideographic space. -/
def isBlank (c : Char) : Bool :=
  c == ' ' || ('\t' ≤ c && c ≤ '\r') || c == '\u00A0' || c == '\uFEFF' || c == '\u3000'

/-- Whether a character lies in one of the given ranges. -/
def inRanges (ranges : List (Nat × Nat)) (c : Char) : Bool :=
  ranges.any fun r => decide (r.1 ≤ c.toNat) && decide (c.toNat ≤ r.2)

/-- The ASCII letters and the underscore. -/
def isAsciiLetter (c : Char) : Bool :=
  c.isAlpha || c == '_'

/-- The characters that begin an identifier. -/
def isIdentifierStart (c : Char) : Bool :=
  isAsciiLetter c || (decide (0x80 ≤ c.toNat) && inRanges identifierStartRanges c)

/-- The characters that continue an identifier. -/
def isIdentifierContinue (c : Char) : Bool :=
  isIdentifierStart c || c.isDigit
    || (decide (0x80 ≤ c.toNat) && inRanges identifierContinueRanges c)

/-- The decimal digits of all scripts. -/
def isDecimalDigit (c : Char) : Bool :=
  c.isDigit || (decide (0x80 ≤ c.toNat) && inRanges digitRanges c)

/-- The hexadecimal digits. -/
def isHexDigit (c : Char) : Bool :=
  c.isDigit || ('a' ≤ c && c ≤ 'f') || ('A' ≤ c && c ≤ 'F')

theorem isIdentifierContinue_of_start {c : Char} (h : isIdentifierStart c = true) :
    isIdentifierContinue c = true := by
  simp [isIdentifierContinue, h]

end InteropStubs.Text
