import InteropStubs.Phrase.Expressions

/-!
# Patterns

The phrases of patterns, which tests and choices compare a value with.
-/

namespace InteropStubs.Rule

open Phrase

/-- A name that a pattern gives to what it fits, or several of them in parentheses. -/
def designationPhrase : Phrase :=
  the "_" <|> parens (listOrNone (rule .designation))
  <|> nameBut ("_" :: Words.connectives ++ Words.operators)

/-- A part of a pattern, possibly with the member that it is about. -/
def subpatternPhrase : Phrase :=
  Phrase.optional (notAt ["_", "not"] (rule .expression) ++ the ":") ++ rule .pattern

/-- The parts of a pattern in parentheses: none or at least two. -/
def positional : Phrase :=
  absent (within .round any)
    ++ parens (Phrase.optional (rule .subpattern ++ the "," ++ list (rule .subpattern)))

/-- The parts of a pattern in parentheses without a type. A name in front of the first one makes it
the value of a tuple. -/
def barePositional : Phrase :=
  absent (opens .round (name ++ the ":" <|> parameterStart)) ++ positional

/-- The parts of a pattern in parentheses behind a type. If a name alone is the first one, all are
names that the pattern gives. -/
def typedPositional : Phrase :=
  let named := nameBut Words.expressionStart ++ (the "," <|> atEnd)
  absent (opens .round (named <|> opens .round named)) ++ positional

/-- The parts of a pattern in braces. -/
def properties : Phrase :=
  braces (listWithEnd (rule .subpattern))

/-- A value that is compared with. -/
def constant : Phrase :=
  let plain := nameBut Words.patternStart
  notAt ["_", "not"] (knownAtom
  <|> parens (absent (rule .place ++ atEnd) ++ notAt ["_", "not"] parenthesized)
  <|> plain ++ Phrase.optional (rule .typeArguments)
  <|> (predefined <|> plain ++ the "::" ++ simpleName) ++ memberAccess
  <|> (prefixOperator <|> cast) ++ rule .operand
  <|> subject ++ (memberAccess <|> parens (rule .arguments) <|> postfixOperator)
  <|> rule .operand ++ oneOrMore (binaryOperator ++ rule .operand))

/-- A type in a pattern. A tuple type has no names in it there: they make it a pattern in
parentheses. -/
def patternType : Phrase :=
  let named := many (rule .type ++ Phrase.optional name ++ the ",") ++ rule .type ++ name
  absent (opens .round (named <|> oneOf ["_", "not"]))
    ++ openTypeBut (["_", "not"] ++ Words.valueStart)

/-- A list of patterns. Two dots stand for any number of elements, though not for the first ones. -/
def elements : Phrase :=
  let others := many (the "," ++ (rule .pattern <|> the ".."))
  noBracketAt (["in", "out"] ++ Words.attributeTargets)
    ++ squares (Phrase.optional (rule .pattern ++ others ++ Phrase.optional (the ",")))

/-- A pattern that is neither combined with others nor only a type, and ends with something other
than a value. The given parts may stand behind a type, and the given names at the end: `bare` without
a type, `typed` with one. -/
def boundedPattern (parts bare typed : Phrase) : Phrase :=
  the "_"
  <|> the "var" ++ rule .designation
  <|> elements
  <|> (barePositional ++ Phrase.optional properties <|> properties) ++ Phrase.optional bare
  <|> noOperation ++ patternType ++ (parts ++ Phrase.optional typed <|> typed)

/-- A pattern that is not combined with others and not only a type, where the given pattern is a
bounded one. In parentheses a type alone is no pattern. -/
def properPatternWith (bounded : Phrase) : Phrase :=
  let more := oneOf Words.connectives ++ rule .pattern
  bounded <|> oneOf ["<", ">", "<=", ">="] ++ rule .expression <|> constant
  <|> parens (notAt ["in", "out", "params", "readonly"]
    (rule .properPattern ++ Phrase.optional more <|> patternType ++ more
      <|> the "not" ++ rule .pattern))

/-- Patterns of the given kind, combined. -/
def combined (p : Phrase) : Phrase :=
  let part := many (the "not") ++ p
  part ++ many (oneOf Words.connectives ++ part)

/-- A bounded pattern of a value, whose name is none of the given words. -/
def boundedPatternBut (words : List String) : Phrase :=
  let bare := notAt words (rule .designation)
  boundedPattern (typedPositional ++ Phrase.optional properties <|> properties) bare
    (bare <|> nameBut ("_" :: Words.connectives ++ words))

/-- A pattern that is not combined with others and not only a type. -/
def properPatternPhrase : Phrase :=
  properPatternWith (boundedPatternBut [])

/-- A pattern. -/
def patternPhrase : Phrase :=
  combined (rule .properPattern <|> patternType)

/-- A pattern behind which a further condition may stand. -/
def casePatternPhrase : Phrase :=
  combined (properPatternWith (boundedPatternBut ["when"]) <|> patternType)

/-- A bounded pattern in a test. Parentheses at its end call the outcome of the test there. -/
def testedBounded : Phrase :=
  let names := absent (anyGroup .round) ++ rule .designation
  boundedPattern properties names names

/-- A pattern in a test. -/
def testedPatternPhrase : Phrase :=
  combined (properPatternWith testedBounded <|> patternType)

/-- A pattern in a test into which nothing behind it is taken. -/
def closedPatternPhrase : Phrase :=
  combined (testedBounded <|> patternType <|> notAt ["_", "not"] knownAtom)

end InteropStubs.Rule
