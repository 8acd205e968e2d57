import InteropStubs.Text.Braces
import InteropStubs.Token.Basic

/-!
# Token trees

Brackets nest, and everything between two brackets belongs together. A `Tree` is a token or a
group: an opening token, the trees inside, and the closing token, or the place where it should
have been. The directives `#if` and `#endif` are brackets too, and so are the quotes of a string
with holes.
-/

namespace InteropStubs

/-- The brackets of the language. -/
inductive Bracket where
  | round
  | square
  | curly
  | conditional
  | quote
deriving DecidableEq, Repr

namespace Bracket

/-- The token that closes a bracket. -/
def closer : Bracket → String
  | round => ")"
  | square => "]"
  | curly => closeBrace
  | conditional => "#endif"
  | quote => "\""

end Bracket

/-- How a group ends. -/
inductive Closing where
  | present (token : Token)
  /-- The closing token is missing at this place. -/
  | absent (place : Nat)
deriving DecidableEq, Repr

/-- A token, or a group of trees between brackets. -/
inductive Tree where
  | token (token : Token)
  | group (bracket : Bracket) (opening : Token) (inner : List Tree) (closing : Closing)

/-- The tokens of an ending. -/
def Closing.tokens : Closing → List Token
  | present t => [t]
  | absent _ => []

namespace Tree

mutual

/-- The tokens of a tree, in order. -/
def tokens : Tree → List Token
  | token t => [t]
  | group _ opening inner closing => opening :: (tokensAll inner ++ closing.tokens)

/-- The tokens of a list of trees, in order. -/
def tokensAll : List Tree → List Token
  | [] => []
  | t :: ts => tokens t ++ tokensAll ts

end

mutual

/-- How deeply groups are nested in a tree. -/
def depthIn : Tree → Nat
  | token _ => 0
  | group _ _ inner _ => depth inner + 1

/-- How deeply groups are nested in a list of trees. -/
def depth : List Tree → Nat
  | [] => 0
  | t :: ts => max (depthIn t) (depth ts)

end

/-- The first token of a tree. -/
def head : Tree → Token
  | token t => t
  | group _ opening _ _ => opening

/-- Where a list of trees starts; a list without trees starts nowhere. -/
def startOf : List Tree → Nat
  | [] => 0
  | t :: _ => t.head.start

/-- The place where something is missed that should follow a list of trees. -/
def reachOf (ts : List Tree) : Nat :=
  match (tokensAll ts).getLast? with
  | some t => t.reach
  | none => 0

/-- Trees as they were written, without the gap in front of the first. -/
def verbatim (ts : List Tree) : String :=
  Token.verbatim (tokensAll ts)

/-- Whether a tree is the given keyword or mark. -/
def isText (text : String) : Tree → Bool
  | token t => t.isText text
  | group .. => false

/-- Whether a tree is a group between the given brackets. -/
def isGroup (b : Bracket) : Tree → Bool
  | token _ => false
  | group bracket _ _ _ => bracket == b

end Tree

end InteropStubs
