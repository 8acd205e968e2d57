import InteropStubs.Token.Lexeme

/-!
# Tokens of a text

Lexemes that are blanks or trivia go into the gap of the token that follows; a token starts where
the lexemes before it end.
-/

namespace InteropStubs

/-- How many characters the gap at the beginning of some lexemes takes up to its last trivia, where
`passed` characters are passed and `known` of them are known to count. -/
def Lexeme.trail (passed known : Nat) : List Lexeme → Nat
  | [] => known
  | ⟨shape, cs⟩ :: lexemes =>
    match shape with
    | .blank => trail (passed + cs.length) known lexemes
    | .comment | .directive => trail (passed + cs.length) (passed + cs.length) lexemes
    | .token _ => known

namespace Token

/-- The tokens of a list of lexemes that begins at `start`, where `gap` holds the pieces directly
in front of it, the nearest first. -/
def ofLexemes (start : Nat) (gap : List Piece) : List Lexeme → List Token
  | [] => []
  | ⟨shape, cs⟩ :: lexemes =>
    let text := String.ofList cs
    let next := start + cs.length
    match shape with
    | .blank => ofLexemes next (.blank text :: gap) lexemes
    | .comment => ofLexemes next (.comment text :: gap) lexemes
    | .directive => ofLexemes next (.directive text :: gap) lexemes
    | .token kind =>
      ⟨kind, gap.reverse, text, start, Lexeme.trail 0 0 lexemes⟩ :: ofLexemes next [] lexemes

/-- The tokens of a text. -/
def ofChars (cs : List Char) : List Token :=
  ofLexemes 0 [] (Lexeme.ofChars cs)

end Token

end InteropStubs
