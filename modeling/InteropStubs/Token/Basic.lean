/-!
# Tokens

A source text is a sequence of tokens with a gap in front of each. A gap is made of blanks and of
trivia, that is comments and directives; it never decides what a declaration is, and it is kept so
that stretches of the source can be written back as they were.
-/

namespace InteropStubs

/-- One piece of the text between two tokens. -/
inductive Piece where
  | blank (text : String)
  | comment (text : String)
  | directive (text : String)
deriving DecidableEq, Repr

/-- The text of a piece. -/
def Piece.text : Piece → String
  | blank t | comment t | directive t => t

/-- Comments and directives are trivia, blanks are not. -/
def Piece.isTrivia : Piece → Bool
  | blank _ => false
  | comment _ | directive _ => true

/-- What a token is. -/
inductive Token.Kind where
  /-- An identifier or a keyword. Which of the two decides the place where it stands. -/
  | word
  | number
  | string
  | character
  /-- The beginning of a string with holes. -/
  | openingQuote
  /-- What stands between the holes of a string, or behind the colon in a hole. -/
  | content
  | closingQuote
  /-- An operator or a separator. -/
  | mark
  /-- A directive that encloses declarations: `#if`, `#elif`, `#else`, `#endif`. -/
  | conditional
  | shebang
  /-- Text that is no token, and what it is reported as. -/
  | broken (what : String)
deriving DecidableEq, Repr

/-- A token, the gap in front of it, where it starts, counted in characters, and how many
characters behind it belong to the trivia that follows it. -/
structure Token where
  kind : Token.Kind
  gap : List Piece
  text : String
  start : Nat
  trail : Nat
deriving DecidableEq, Repr

namespace Token

/-- Whether a token is the given keyword or mark. -/
def isText (t : Token) (text : String) : Bool :=
  (t.kind == .word || t.kind == .mark) && t.text == text

/-- Whether a token is the given one of the directives that enclose declarations. -/
def isDirective (t : Token) (name : String) : Bool :=
  t.kind == .conditional
    && name.toList.isPrefixOf (t.text.toList.tail.dropWhile fun c => c == ' ' || c == '\t')

/-- Whether nothing stands between the previous token and this one. -/
def isTight (t : Token) : Bool :=
  t.gap.isEmpty

/-- Whether a comment or a directive stands in front of a token. -/
def afterTrivia (t : Token) : Bool :=
  t.gap.any Piece.isTrivia

/-- The text of the gap in front of a token. -/
def gapText (t : Token) : String :=
  String.join (t.gap.map Piece.text)

/-- The place just behind a token. -/
def stop (t : Token) : Nat :=
  t.start + t.text.length

/-- The place behind a token and behind the trivia that follows it. What should have come next is
missed there. -/
def reach (t : Token) : Nat :=
  t.stop + t.trail

/-- Tokens as they were written, without the gap in front of the first. -/
def verbatim : List Token → String
  | [] => ""
  | t :: ts => t.text ++ String.join (ts.map fun u => u.gapText ++ u.text)

end Token

end InteropStubs
