import InteropStubs.Phrase.Types

/-!
# Expressions

The phrases of expressions. Only their extent matters, so precedence is not told apart: an
expression is prefixes, an atom and what follows it. What may follow depends on whether the
expression so far is a *place*, to which something can be assigned, or only a *value*; the rules
`afterPlace` and `afterValue` say it.
-/

namespace InteropStubs.Rule

open Phrase

/-! ### Operators -/

/-- The operators between two operands that bind as tightly as comparisons do, or more. Closing
angle brackets that touch are one operator. -/
def tightOperator : Phrase :=
  let shift := the ">" ++ touching ">" ++ Phrase.optional (touching ">")
  shift <|> oneOf ["*", "/", "%", "+", "-", "<<", "<", ">", "<=", ">=", "==", "!="]

/-- The operators between two operands. -/
def binaryOperator : Phrase :=
  tightOperator <|> oneOf ["&", "^", "|", "&&", "||", "??"]

/-- The operators that assign. -/
def assignment : Phrase :=
  let shift := the ">" ++ Phrase.optional (touching ">") ++ touching ">="
  shift
  <|> oneOf ["=", "+=", "-=", "*=", "/=", "%=", "&=", "|=", "^=", "<<=", "??="]

/-- The operators in front of an operand. -/
def prefixOperator : Phrase :=
  oneOf ["+", "-", "!", "~", "++", "--", "&", "^"]

/-- The operators behind an operand. -/
def postfixOperator : Phrase :=
  oneOf ["++", "--", "!"]

/-- A member of what stands in front. -/
def memberAccess : Phrase :=
  oneOf [".", "->"] ++ simpleName

/-! ### Arguments -/

/-- An argument that is no plain expression: it has a name, it is passed by reference, or it
declares a plain. -/
def markedArgument : Phrase :=
  let declarationBut words := noOperation ++ declaredTypeBut words ++ name
  let mode := oneOf ["out", "in"] <|> the "ref" ++ absent (the "readonly")
  let passed := mode ++ (rule .expression <|> declarationBut Words.valueStart)
  let declaration := declarationBut Words.argumentValueStart
  passed <|> declaration
  <|> nameBut Words.argumentStart ++ the ":"
    ++ (passed <|> notAt ["in", "out"] (rule .expression) <|> declaration)

/-- An argument. -/
def argument : Phrase :=
  notAt ["in", "out"] (rule .expression) <|> markedArgument

/-- Arguments in square brackets. -/
def index : Phrase :=
  squares (list argument ++ Phrase.optional (the ","))

/-- Arguments in square brackets where attributes might stand as well. -/
def openIndex : Phrase :=
  noBracketAt Words.attributeTargets ++ index

/-- The elements of a tuple behind the first one. -/
def tupleEnd : Phrase :=
  the "," ++ list argument

/-- What stands between the parentheses of a tuple. -/
def tuple : Phrase :=
  argument ++ tupleEnd

/-- What stands between parentheses that are no call: one value, or a tuple. Parameters might stand
there as well. -/
def parenthesized : Phrase :=
  notAt ["in", "out", "params", "readonly"] (rule .expression) ++ Phrase.optional tupleEnd
  <|> absent (notAt ["in", "out"] noTypeStart) ++ markedArgument ++ tupleEnd

/-- What stands between parentheses to which something is assigned. -/
def parenthesizedPlace : Phrase :=
  notAt ["in", "out", "params", "readonly"] (rule .place)
  <|> notAt ["params", "readonly"] tuple

/-! ### Objects -/

/-- Elements in braces. -/
def initializer : Phrase :=
  braces (listWithEnd (rule .expression))

/-- How a new object is made. -/
def creation : Phrase :=
  let filled := Phrase.optional initializer
  let member := Phrase.optional (nameBut Words.expressionStart ++ the "=") ++ rule .expression
  the "new" ++ (rule .type ++ (parens (rule .arguments) <|> absent (anyGroup .round)) ++ filled
    <|> parens (rule .arguments) ++ filled
    <|> squares (many (the ",")) ++ initializer
    <|> braces (listWithEnd member))

/-- How a new array on the stack is made. -/
def stackArray : Phrase :=
  the "stackalloc" ++ (arrayType ++ Phrase.optional initializer <|> squares .empty ++ initializer)

/-! ### Functions -/

/-- Parameters in front of an arrow, where the given words begin something else. They are looked at
only if the arrow is there. -/
def arrowParametersBut (others : List String) : Phrase :=
  ahead (anyGroup .round ++ the "=>") ++ parens (absent (oneOf others) ++ rule .parameters)

/-- The head of an anonymous function with an arrow, where some words begin something else: `others`
anywhere, `first` where parameters begin it, and `second` in parameters behind a type. -/
def arrowHead (others first second : List String) : Phrase :=
  nameBut (Words.typeStart ++ others) <|> arrowParametersBut first
    <|> noOperation ++ declaredTypeBut others
      ++ (name ++ ahead (the "=>") <|> arrowParametersBut second)

/-- An anonymous function with an arrow, up to the arrow. -/
def arrowFunction : Phrase :=
  let modes := ["async", "static"]
  let decorated := oneOrMore (rule .attributes) ++ many (oneOf modes) <|> oneOrMore (oneOf modes)
  let others := Words.valueStart.erase "this"
  (noBracketAt Words.argumentStart ++ decorated ++ arrowHead modes [] []
    <|> arrowHead Words.valueStart (["in", "out"] ++ others) others) ++ the "=>"

/-- An anonymous function without an arrow. -/
def delegateFunction : Phrase :=
  many (oneOf ["async", "static"]) ++ the "delegate"
    ++ Phrase.optional (parens (rule .parameters)) ++ rule .block

/-! ### Queries -/

/-- A query up to the last expression in it. -/
def query : Phrase :=
  let plainBut words := nameBut (Words.typeStart ++ words)
    <|> notAt words (rule .type) ++ nameBut ["in"]
  let source := the "from" ++ plainBut Words.operators ++ the "in" ++ rule .expression
  let join := the "join" ++ plainBut [] ++ the "in" ++ rule .expression ++ the "on"
    ++ rule .expression ++ the "equals" ++ rule .expression ++ Phrase.optional (the "into" ++ name)
  let ordering := rule .expression ++ Phrase.optional (oneOf ["ascending", "descending"])
  let clause := source <|> join <|> the "let" ++ name ++ the "=" ++ rule .expression
    <|> the "where" ++ rule .expression <|> the "orderby" ++ list ordering
  let result := the "select" ++ rule .expression
    <|> the "group" ++ rule .expression ++ the "by" ++ rule .expression
  source ++ many clause ++ result ++ many (the "into" ++ name ++ many clause ++ result)

/-! ### Atoms -/

/-- A string with holes. -/
def stringWithHoles : Phrase :=
  let hole := rule .expression ++ Phrase.optional (the "," ++ rule .expression)
    ++ Phrase.optional (the ":" ++ one .content)
  within .quote (many (one .content <|> braces hole))

/-- The atoms that can be compared with in a pattern: literals and what is known of types. -/
def knownAtom : Phrase :=
  one .literal <|> stringWithHoles <|> oneOf ["true", "false", "null"]
  <|> the "default" ++ (parens (rule .type) <|> absent (anyGroup .round))
  <|> oneOf ["typeof", "sizeof"] ++ parens (rule .type)

/-- A value that depends on a condition. If there is none in any branch, the conditional belongs to
the anonymous function that follows it, or it has one branch and no function can follow. -/
def conditionalValue : Phrase :=
  within .conditional .empty
    ++ absent (anyGroup .round <|> anyGroup .square <|> nameBut Words.expressionEnd)
  <|> absent (branches .empty) ++ branches (Phrase.optional (rule .expression))

/-- The atoms that are values. -/
def valueAtom : Phrase :=
  knownAtom <|> parens parenthesized <|> the "base"
  <|> oneOf ["checked", "unchecked", "__makeref", "__reftype"] ++ parens (rule .expression)
  <|> the "__refvalue" ++ parens (rule .expression ++ the "," ++ rule .type)
  <|> creation <|> stackArray <|> delegateFunction <|> initializer
  <|> conditionalValue

/-- What is behind a pointer. -/
def pointee : Phrase :=
  oneOrMore (the "*") ++ rule .place

/-- The atoms that are places without parentheses around them. -/
def bareAtom : Phrase :=
  let plain := nameBut Words.expressionStart
  let owner := predefined <|> plain ++ the "::" ++ simpleName
  the "this" <|> plain ++ Phrase.optional (rule .typeArguments) <|> openIndex
  <|> owner ++ memberAccess <|> pointee

/-- The atoms that are places. Parentheses are looked at only if something is assigned to them. -/
def placeAtom : Phrase :=
  bareAtom
  <|> ahead (anyGroup .round ++ assignment) ++ parens parenthesizedPlace

/-! ### Whole expressions -/

/-- The arms of a choice by patterns. -/
def arms : Phrase :=
  let guard := Phrase.optional (the "when" ++ rule .expression)
  braces (listWithEnd (rule .casePattern ++ guard ++ the "=>" ++ rule .expression))

/-- What may follow two dots: an operand, or what follows a value, unless an operand could begin
there. -/
def rangeEnd : Phrase :=
  let operand := oneOf ["+", "-", "!", "~", "++", "--", "&", "^", "*", ".."]
    <|> anyGroup .round <|> anyGroup .square <|> anyGroup .curly <|> nameBut Words.expressionEnd
  notAt Words.operators (rule .expression) <|> absent operand ++ rule .afterValue

/-- The members that differ in a changed copy of a value. -/
def changes : Phrase :=
  braces (listWithEnd (name ++ the "=" ++ rule .expression))

/-- How an expression goes on behind an operand, whichever kind it is. -/
def continuation : Phrase :=
  binaryOperator ++ rule .expression
  <|> the "?" ++ (rule .expression ++ the ":" ++ rule .expression
    <|> (the "." ++ simpleName <|> openIndex) ++ rule .afterValue)
  <|> the "is" ++ rule .testedPattern ++ rule .afterValue
  <|> the "as" ++ rule .type ++ rule .afterValue
  <|> the "switch" ++ arms ++ rule .afterValue
  <|> the "with" ++ changes ++ rule .afterValue
  <|> the ".." ++ rangeEnd

/-- What may follow a value. -/
def afterValuePhrase : Phrase :=
  empty <|> (memberAccess <|> index) ++ rule .afterPlace
  <|> (parens (rule .arguments) <|> postfixOperator) ++ rule .afterValue
  <|> continuation

/-- What may follow a place. -/
def afterPlacePhrase : Phrase :=
  rule .afterValue <|> assignment ++ rule .expression

/-- A cast. -/
def cast : Phrase :=
  parens (absent noTypeStart ++ rule .type)

/-- What may stand in front of any expression. -/
def leading : Phrase :=
  prefixOperator <|> oneOf ["await", "throw"] <|> the "ref" ++ absent (the "readonly") <|> cast

/-- An expression. -/
def expressionPhrase : Phrase :=
  valueAtom ++ rule .afterValue <|> placeAtom ++ rule .afterPlace
  <|> leading ++ rule .expression
  <|> the ".." ++ rangeEnd
  <|> arrowFunction ++ (rule .block ++ rule .afterValue <|> rule .expression)
  <|> query

/-! ### Parts of expressions -/

/-- What may follow an operand and leaves it an operand. -/
def tail : Phrase :=
  memberAccess <|> index <|> parens (rule .arguments) <|> postfixOperator

/-- An atom of either kind. -/
def atom : Phrase :=
  valueAtom <|> bareAtom

/-- What may stand in front of an operand that does something with it first. -/
def unaryOperator : Phrase :=
  prefixOperator <|> the "await" <|> cast

/-- What ends an expression so that what follows is about all of it: behind a type, a pattern or a
brace nothing is taken into the last operand. The operators in front of such an end bind more
tightly than it does. -/
def closure : Phrase :=
  let operand := many unaryOperator ++ atom ++ many tail
  let access := the "?" ++ (the "." ++ simpleName <|> openIndex)
  let test := the "is" ++ (rule .type <|> rule .closedPattern) <|> the "as" ++ rule .type
  let choice := the "switch" ++ arms <|> the "with" ++ changes
  many (binaryOperator ++ operand) ++ access
    <|> many (tightOperator ++ operand) ++ test
    <|> choice

/-- An expression that can be called, or whose members can be taken, without parentheses. -/
def subject : Phrase :=
  ((atom <|> arrowFunction ++ rule .block) ++ many tail
    <|> oneOrMore unaryOperator ++ atom ++ many tail ++ closure ++ many tail)
  ++ many (closure ++ many tail)

/-- A place that is no part of anything else. -/
def simplePlace : Phrase :=
  bareAtom <|> parens parenthesizedPlace

/-- A place. -/
def placePhrase : Phrase :=
  simplePlace <|> subject ++ (memberAccess <|> index)

/-- An operand: an expression whose outermost operator, if it has any, is not between two parts. -/
def operandPhrase : Phrase :=
  unaryOperator ++ rule .operand
  <|> (oneOf ["throw", "ref"] <|> arrowFunction) ++ rule .expression
  <|> the ".." ++ Phrase.optional (rule .expression)
  <|> arrowFunction ++ rule .block
  <|> query
  <|> rule .place ++ assignment ++ rule .expression
  <|> atom ++ many tail

/-- An expression that is a statement: it does something when it is evaluated. -/
def effectPhrase : Phrase :=
  let assigned := assignment ++ rule .expression
  let others := "foreach" :: "using" :: Words.modifiers.erase "new"
  absent (the "await" ++ oneOf others)
  ++ absent (braces .empty
    ++ (prefixOperator <|> postfixOperator <|> anyGroup .round <|> anyGroup .square))
  ++ (simplePlace ++ assigned
    <|> subject ++ (parens (rule .arguments) <|> postfixOperator
      <|> (memberAccess <|> index) ++ assigned)
    <|> (prefixOperator <|> the "await") ++ rule .operand
    <|> the "new" ++ notAt Words.modifiers (rule .type)
      ++ Phrase.optional (parens (rule .arguments)) ++ Phrase.optional initializer
    <|> absent (parens (rule .place) ++ the ";") ++ parens (rule .expression))

end InteropStubs.Rule
