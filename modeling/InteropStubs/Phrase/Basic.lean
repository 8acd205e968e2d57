import InteropStubs.Tree.Basic

/-!
# Phrases

A `Phrase` is a pattern for the beginning of a list of trees, built from tokens, groups, sequence,
choice and repetition; phrases refer to one another by the names in `Rule`. A phrase may fit a list
in several ways, and `Phrase.takes` finds how many trees it takes in each of them, every number
once and in ascending order. So alternatives that come to the same end cost nothing afterwards.

A phrase looks at tokens and groups and never at where they stand; of the gap in front of a token
it sees at most whether there is one.
-/

namespace InteropStubs

/-- A class of tokens. -/
inductive TokenClass where
  /-- A keyword or a mark. -/
  | text (text : String)
  | anyOf (texts : List String)
  /-- An identifier, where the given words are keywords. -/
  | nameBut (keywords : List String)
  /-- A number, a string or a character. -/
  | literal
  /-- What stands between the holes of a string. -/
  | content
  /-- One of the directives that enclose declarations. -/
  | directive (name : String)
deriving DecidableEq, Repr

/-- Whether a token is in a class. -/
def TokenClass.holds : TokenClass → Token → Bool
  | text s, t => t.isText s
  | anyOf ss, t => (t.kind == .word || t.kind == .mark) && ss.contains t.text
  | nameBut ss, t => t.kind == .word && !ss.contains t.text
  | literal, t => t.kind == .number || t.kind == .string || t.kind == .character
  | content, t => t.kind == .content
  | directive name, t => t.isDirective name

/-- The names that phrases have for one another. -/
inductive Rule where
  | type | valueType | typeArguments
  | attributes | parameters | body | block
  | expression | afterPlace | afterValue | place | operand | arguments
  | opensOther
  | pattern | properPattern | casePattern | testedPattern | closedPattern | designation | subpattern | tupleNames
  | statement | effect
  | declaration | fileItem
deriving DecidableEq, Repr

/-- A pattern for the beginning of a list of trees. -/
inductive Phrase where
  /-- Nothing. -/
  | empty
  /-- One token. -/
  | one (tokens : TokenClass)
  /-- One tree, whatever it is. -/
  | any
  /-- One closed group whose trees the phrase fits as a whole. -/
  | within (bracket : Bracket) (inner : Phrase)
  /-- One closed group whose trees begin with the phrase. -/
  | opens (bracket : Bracket) (start : Phrase)
  | andThen (first second : Phrase)
  | orElse (first second : Phrase)
  /-- Any number of times. -/
  | many (phrase : Phrase)
  /-- Nothing, where the phrase does not fit. -/
  | absent (phrase : Phrase)
  /-- A keyword or a mark that follows without a gap. -/
  | touching (text : String)
  /-- The phrase of a rule. -/
  | rule (name : Rule)

namespace Phrase

instance : Append Phrase := ⟨andThen⟩

instance : OrElse Phrase := ⟨fun p q => orElse p (q ())⟩

/-- A keyword or a mark. -/
def the (text : String) : Phrase := one (.text text)

/-- One of several keywords or marks. -/
def oneOf (texts : List String) : Phrase := one (.anyOf texts)

/-- An identifier, where the given words are keywords. -/
def nameBut (keywords : List String) : Phrase := one (.nameBut keywords)

/-- An identifier, where no word is a keyword. -/
def name : Phrase := nameBut []

/-- A phrase that may be left out. -/
def optional (p : Phrase) : Phrase := p <|> empty

/-- A phrase at least once. -/
def oneOrMore (p : Phrase) : Phrase := p ++ many p

/-- Nothing, where the phrase fits. -/
def ahead (p : Phrase) : Phrase := absent (absent p)

/-- A phrase that does not begin with one of the given words. -/
def notAt (words : List String) (p : Phrase) : Phrase := absent (oneOf words) ++ p

/-- At least one, with commas between. -/
def list (p : Phrase) : Phrase := p ++ many (the "," ++ p)

/-- Any number, with commas between. -/
def listOrNone (p : Phrase) : Phrase := optional (list p)

/-- Any number, with commas between and possibly one behind. -/
def listWithEnd (p : Phrase) : Phrase := listOrNone p ++ optional (the ",")

/-- The end of the trees. -/
def atEnd : Phrase := absent any

/-- A group in parentheses. -/
def parens (p : Phrase) : Phrase := within .round p

/-- A group in square brackets. -/
def squares (p : Phrase) : Phrase := within .square p

/-- A group in braces. -/
def braces (p : Phrase) : Phrase := within .curly p

/-- A group between the given brackets, whatever is in it. -/
def anyGroup (b : Bracket) : Phrase := opens b empty

/-- A conditional with the given phrase in each of its branches. -/
def branches (p : Phrase) : Phrase :=
  within .conditional (p ++ many (one (.directive "elif") ++ p)
    ++ optional (one (.directive "else") ++ p))

/-! ### How many trees a phrase takes -/

/-- Put a number into an ascending list, unless it is there. -/
def insert (n : Nat) : List Nat → List Nat
  | [] => [n]
  | m :: ms => if n < m then n :: m :: ms else if n = m then m :: ms else m :: insert n ms

/-- The numbers of two ascending lists. -/
def union (ns ms : List Nat) : List Nat :=
  ns.foldr insert ms

/-- How many trees are taken by a step that follows the first `n` trees, for each of some `n`. -/
def inTurn (ns : List Nat) (step : List Tree → List Nat) (ts : List Tree) : List Nat :=
  ns.foldr (fun n found => union ((step (ts.drop n)).map (n + ·)) found) []

/-- How many trees are taken by steps from `ts` on, where there are steps that have come as far as
the numbers in `ahead` say. Steps that take nothing do not count, and there are at most `bound`
others. -/
def repeated (step : List Tree → List Nat) :
    (bound : Nat) → (ahead : List Nat) → (ts : List Tree) → List Nat
  | 0, _, _ => [0]
  | bound + 1, ahead, ts =>
    match union ((step ts).filter (0 < ·)) ahead with
    | [] => [0]
    | n :: ns => 0 :: (repeated step bound (ns.map (· - n)) (ts.drop n)).map (n + ·)

/-- How many trees a phrase may take of a list, where `call` says this for names. -/
def takes (call : Rule → List Tree → List Nat) : Phrase → List Tree → List Nat
  | empty, _ => [0]
  | one tokens, ts =>
    match ts with
    | .token t :: _ => if tokens.holds t then [1] else []
    | _ => []
  | any, ts => if ts.isEmpty then [] else [1]
  | within bracket inner, ts =>
    match ts with
    | .group b _ trees (.present _) :: _ =>
      if b = bracket && (inner.takes call trees).contains trees.length then [1] else []
    | _ => []
  | opens bracket start, ts =>
    match ts with
    | .group b _ trees (.present _) :: _ =>
      if b = bracket && !(start.takes call trees).isEmpty then [1] else []
    | _ => []
  | andThen first second, ts => inTurn (first.takes call ts) (second.takes call) ts
  | orElse first second, ts => union (first.takes call ts) (second.takes call ts)
  | many phrase, ts => repeated (phrase.takes call) ts.length [] ts
  | absent phrase, ts => if (phrase.takes call ts).isEmpty then [0] else []
  | touching text, ts =>
    match ts with
    | .token t :: _ => if t.isText text && t.isTight then [1] else []
    | _ => []
  | rule name, ts => call name ts

theorem takes_andThen (call : Rule → List Tree → List Nat) (p q : Phrase) (ts : List Tree) :
    (p ++ q).takes call ts = inTurn (p.takes call ts) (q.takes call) ts := rfl

theorem takes_orElse (call : Rule → List Tree → List Nat) (p q : Phrase) (ts : List Tree) :
    (p <|> q).takes call ts = union (p.takes call ts) (q.takes call ts) := rfl

theorem takes_absent (call : Rule → List Tree → List Nat) (p : Phrase) (ts : List Tree) :
    (absent p).takes call ts = if (p.takes call ts).isEmpty then [0] else [] := by
  rw [takes]

end Phrase

end InteropStubs
