import InteropStubs.Tree.Basic

/-!
# Nesting

Tokens are nested by a single pass that keeps the open brackets on a stack. Every sequence of
tokens nests: a closing token that closes nothing stays a token of its own, and a bracket that is
not closed in time closes with its closing token marked as missing. A round or square bracket is
out of time at a semicolon, unless it is the header of a `for` loop; every bracket is out of time
when one around it closes, and at the end of the input.
-/

namespace InteropStubs.Tree

/-- An open bracket: its opening token, and the trees in front of it, the nearest first. -/
structure Opened where
  bracket : Bracket
  opening : Token
  before : List Tree

/-- The state of a pass: the open brackets, innermost first; the trees of the innermost level, the
last one first; and the place where a token that should follow the last one is missed. -/
structure Pass where
  opened : List Opened := []
  level : List Tree := []
  reach : Nat := 0

/-- The bracket that a token opens. -/
def bracketOpenedBy? (t : Token) : Option Bracket :=
  if t.isText "(" then some .round
  else if t.isText "[" then some .square
  else if t.isText openBrace then some .curly
  else if t.isDirective "if" then some .conditional
  else if t.kind = .openingQuote then some .quote
  else none

/-- The bracket that a token closes. -/
def bracketClosedBy? (t : Token) : Option Bracket :=
  if t.isText ")" then some .round
  else if t.isText "]" then some .square
  else if t.isText closeBrace then some .curly
  else if t.isDirective "endif" then some .conditional
  else if t.kind = .closingQuote then some .quote
  else none

/-- Whether an open bracket is the header of a `for` loop. -/
def Opened.isLoopHeader (o : Opened) : Bool :=
  match o.before with
  | t :: _ => t.isText "for"
  | [] => false

/-- Whether a semicolon directly inside an open bracket shows that it was not closed. -/
def Opened.endsAtSemicolon (o : Opened) : Bool :=
  match o.bracket with
  | .round => !o.isLoopHeader
  | .square => true
  | .curly | .conditional | .quote => false

namespace Pass

/-- The trees of the innermost level closed into a group that follows what stood before it. -/
def closeInto (o : Opened) (level : List Tree) (closing : Closing) : List Tree :=
  .group o.bracket o.opening level.reverse closing :: o.before

/-- Close, as not closed in time, the innermost brackets that satisfy `p`, with their closing tokens
missed at the given place. -/
def giveUp (p : Opened → Bool) (place : Nat) :
    List Opened → List Tree → List Opened × List Tree
  | [], level => ([], level)
  | o :: opened, level =>
    if p o then giveUp p place opened (closeInto o level (.absent place))
    else (o :: opened, level)

/-- Add a token that is no bracket. -/
def add (s : Pass) (t : Token) : Pass :=
  if t.isText ";" then
    let (opened, level) := giveUp Opened.endsAtSemicolon s.reach s.opened s.level
    ⟨opened, .token t :: level, t.reach⟩
  else { s with level := .token t :: s.level, reach := t.reach }

/-- Add a token that opens a bracket. -/
def enter (s : Pass) (bracket : Bracket) (t : Token) : Pass :=
  ⟨⟨bracket, t, s.level⟩ :: s.opened, [], t.reach⟩

/-- Add a token that closes a bracket. -/
def leave (s : Pass) (bracket : Bracket) (t : Token) : Pass :=
  if s.opened.any (·.bracket == bracket) then
    let (opened, level) := giveUp (·.bracket != bracket) s.reach s.opened s.level
    match opened with
    | o :: opened => ⟨opened, closeInto o level (.present t), t.reach⟩
    | [] => ⟨[], .token t :: level, t.reach⟩
  else { s with level := .token t :: s.level, reach := t.reach }

/-- Add a token. -/
def push (s : Pass) (t : Token) : Pass :=
  match bracketOpenedBy? t, bracketClosedBy? t with
  | some bracket, _ => s.enter bracket t
  | none, some bracket => s.leave bracket t
  | none, none => s.add t

/-- The trees of a pass that is over. -/
def trees (s : Pass) : List Tree :=
  (giveUp (fun _ => true) s.reach s.opened s.level).2.reverse

end Pass

/-- The trees of some tokens. -/
def ofTokens (ts : List Token) : List Tree :=
  (ts.foldl Pass.push {}).trees

end InteropStubs.Tree
