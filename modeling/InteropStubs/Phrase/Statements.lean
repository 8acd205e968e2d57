import InteropStubs.Phrase.Patterns

/-!
# Statements

The phrases of statements and blocks.
-/

namespace InteropStubs.Rule

open Phrase

/-! ### Declarations in blocks -/

/-- Names in parentheses, where the given words are keywords at the first one. -/
def tupleNamesBut (keywords : List String) : Phrase :=
  parens ((nameBut keywords <|> rule .tupleNames) ++ many (the "," ++ (name <|> rule .tupleNames)))

/-- A variable and its value, where some words are keywords: `keywords` for the name, and `inner` for
the first of several names in parentheses. -/
def declaratorBut (keywords inner : List String) : Phrase :=
  (nameBut keywords <|> tupleNamesBut inner) ++ Phrase.optional index
    ++ Phrase.optional (the "=" ++ rule .expression)

/-- Variables and their values, where some words are keywords at the first one. -/
def declaratorsBut (keywords inner : List String) : Phrase :=
  declaratorBut keywords inner ++ many (the "," ++ declaratorBut [] [])

/-- A type behind attributes or modifiers in a block. -/
def decoratedType : Phrase :=
  notAt Words.modifiers (rule .type)

/-- Modifiers at the beginning of a statement. There `new` is one only in front of another one, and
`file` only where it is no operand. -/
def leadingModifiers : Phrase :=
  absent (the "new" ++ absent (oneOf Words.modifiers))
    ++ absent (the "file" ++ oneOf Words.operators) ++ oneOrMore modifier

/-- A type where an expression might begin as well and no modifier can stand. -/
def bareType : Phrase :=
  noOperation ++ declaredTypeBut Words.valueStart

/-- A type at the beginning of a statement. -/
def leadingType : Phrase :=
  absent (the "file" ++ oneOf (Words.typeStart ++ Words.modifiers)) ++ notAt Words.modifiers bareType

/-- The variables behind a type where a call might stand as well. -/
def openDeclarators : Phrase :=
  declaratorsBut [] Words.parameterStart

/-- The declaration of variables in a block that does not dispose of them. -/
def localVariables : Phrase :=
  let decorated := leadingModifiers ++ decoratedType ++ declaratorsBut [] []
  let typed := decorated <|> leadingType ++ openDeclarators
  (the "await" ++ notAt ["foreach", "using"] typed <|> typed) ++ the ";"

/-- The declaration of variables in a block that disposes of them at its end. -/
def disposedVariables : Phrase :=
  Phrase.optional (the "await") ++ the "using" ++ many modifier ++ decoratedType
    ++ declaratorsBut [] [] ++ the ";"

/-- A function in a block. -/
def localFunction : Phrase :=
  let decorated := oneOrMore (rule .attributes) ++ many modifier <|> leadingModifiers
  (noBracketAt Words.argumentStart ++ decorated ++ decoratedType <|> leadingType)
    ++ name ++ Phrase.optional (typeParametersBut []) ++ parens (rule .parameters) ++ constraints
    ++ rule .body

/-! ### Statements with keywords -/

/-- A condition in parentheses. -/
def condition : Phrase :=
  parens (rule .expression)

/-- What stands between the parentheses of a loop over a collection. -/
def loopRange : Phrase :=
  let item := absent (qualifiedNameBut Words.typeStart ++ the "in" ++ the "in") ++ bareType
  let names := name <|> tupleNamesBut (["in", "out"] ++ Words.typeStart)
  (item ++ names <|> rule .expression) ++ the "in" ++ rule .expression

/-- What stands between the parentheses of a counting loop. -/
def loopHeader : Phrase :=
  let steps := listOrNone (rule .expression)
  (bareType ++ openDeclarators <|> steps) ++ the ";" ++ Phrase.optional (rule .expression) ++ the ";" ++ steps

/-- The sections of a choice. -/
def sections : Phrase :=
  let guard := Phrase.optional (the "when" ++ rule .expression)
  let label := the "case"
      ++ (noBracketAt ["not"] ++ notAt ["_", "not"] (rule .expression) <|> rule .casePattern ++ guard)
      ++ the ":"
    <|> the "default" ++ the ":"
  many (label ++ many (notAt ["case", "default"] (rule .statement)))

/-- An attempt with its handlers. Where a handler can follow, its keyword begins one. -/
def attempt : Phrase :=
  let handler := the "catch" ++ Phrase.optional (parens (rule .type ++ Phrase.optional name))
    ++ Phrase.optional (the "when" ++ condition) ++ rule .block
  the "try" ++ rule .block ++ many handler
    ++ (the "finally" ++ rule .block <|> absent (oneOf ["catch", "finally"]))

/-- The statements that begin with a keyword. -/
def keywordStatement : Phrase :=
  let value := Phrase.optional (rule .expression) ++ the ";"
  let resource := parens (bareType ++ list (name ++ Phrase.optional (the "=" ++ rule .expression))
    <|> rule .expression)
  the "if" ++ condition ++ rule .statement
    ++ (the "else" ++ rule .statement <|> absent (the "else"))
  <|> the "while" ++ condition ++ rule .statement
  <|> the "do" ++ rule .statement ++ the "while" ++ condition ++ the ";"
  <|> the "for" ++ parens loopHeader ++ rule .statement
  <|> Phrase.optional (the "await") ++ the "foreach" ++ parens loopRange ++ rule .statement
  <|> the "switch" ++ parens (notAt ["in", "out"] (rule .expression) <|> tuple)
    ++ braces sections
  <|> attempt
  <|> oneOf ["return", "throw"] ++ value
  <|> oneOf ["break", "continue"] ++ the ";"
  <|> the "goto" ++ (the "case" ++ value <|> the "default" ++ notAt Words.operators value
    <|> notAt ["case"] value)
  <|> the "yield" ++ (the "return" ++ rule .expression <|> the "break") ++ the ";"
  <|> the "lock" ++ condition ++ rule .statement
  <|> the "fixed" ++ parens (rule .type ++ declaratorsBut [] []) ++ rule .statement
  <|> oneOf ["checked", "unchecked", "unsafe"] ++ rule .block
  <|> Phrase.optional (the "await") ++ the "using" ++ resource ++ rule .statement

/-! ### All statements -/

/-- A statement that begins with no keyword of its own. -/
def plainStatement : Phrase :=
  nameBut (Words.modifiers ++ Words.expressionStart) ++ the ":" ++ rule .statement
  <|> localFunction <|> localVariables
  <|> notAt (Words.modifiers.erase "new") (rule .effect) ++ the ";"

/-- A statement. -/
def statementPhrase : Phrase :=
  rule .block <|> the ";" <|> branches (many (rule .fileItem)) <|> keywordStatement
  <|> disposedVariables
  <|> absent (the "yield" ++ oneOf ["return", "break"])
    ++ notAt Words.statementStart plainStatement

end InteropStubs.Rule
