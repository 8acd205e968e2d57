import InteropStubs.Phrase.Declarations

/-!
# The grammar

`Rule.phrase` gives every rule its phrase, and `Phrase.sizes` says how many trees a phrase may take of
a list when its rules are filled in.
-/

namespace InteropStubs

namespace Rule

open Phrase

/-- The phrase of a rule. -/
def phrase : Rule → Phrase
  | type => typePhrase
  | valueType => valueTypePhrase
  | typeArguments => typeArgumentList
  | attributes => attributePhrase
  | parameters => listOrNone parameter
  | body => the ";" <|> rule .block <|> the "=>" ++ rule .expression ++ the ";"
  | block => braces (many (rule .statement))
  | expression => expressionPhrase
  | afterPlace => afterPlacePhrase
  | afterValue => afterValuePhrase
  | place => placePhrase
  | operand => operandPhrase
  | arguments => listOrNone argument
  | opensOther => opens .round noTypeStart
  | pattern => patternPhrase
  | properPattern => properPatternPhrase
  | casePattern => casePatternPhrase
  | testedPattern => testedPatternPhrase
  | closedPattern => closedPatternPhrase
  | designation => designationPhrase
  | subpattern => subpatternPhrase
  | tupleNames => tupleNamesBut []
  | statement => statementPhrase
  | effect => effectPhrase
  | declaration => declarationPhrase
  | fileItem => fileItemWith (braces (many (rule .declaration)))

/-- How many trees a rule may take of a list, where at most `fuel` rules are entered one inside the
other. -/
def takes : (fuel : Nat) → Rule → List Tree → List Nat
  | 0, _, _ => []
  | fuel + 1, r, ts => r.phrase.takes (takes fuel) ts

end Rule

/-- How deeply rules can be nested in a list of trees: a few for every token. -/
def Tree.ruleDepth (ts : List Tree) : Nat :=
  16 * ((Tree.tokensAll ts).length + 1)

/-- How many trees a phrase may take of a list, in ascending order. -/
def Phrase.sizes (p : Phrase) (ts : List Tree) : List Nat :=
  p.takes (Rule.takes (Tree.ruleDepth ts)) ts

/-- Whether a phrase fits a list of trees as a whole. -/
def Phrase.fits (p : Phrase) (ts : List Tree) : Bool :=
  (p.sizes ts).contains ts.length

end InteropStubs
