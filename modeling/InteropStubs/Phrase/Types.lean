import InteropStubs.Phrase.Basic
import InteropStubs.Phrase.Words

/-!
# Types, attributes and parameters

The phrases of what stands in signatures: names, types, type parameters, attributes and
parameters.
-/

namespace InteropStubs.Rule

open Phrase

/-! ### Names -/

/-- A name with type arguments, where the given words are keywords. -/
def simpleNameBut (keywords : List String) : Phrase :=
  nameBut keywords ++ Phrase.optional (rule .typeArguments)

/-- A name with type arguments, where no word is a keyword. -/
def simpleName : Phrase :=
  simpleNameBut []

/-- A qualified name, where the given words are keywords at its beginning. Only its first part can
be an alias. -/
def qualifiedNameBut (keywords : List String) : Phrase :=
  (nameBut keywords ++ the "::" ++ simpleName <|> simpleNameBut keywords)
    ++ many (the "." ++ simpleName)

/-! ### Types -/

/-- The name of a type that is built in. -/
def predefined : Phrase :=
  oneOf Words.predefined

/-- The brackets of an array type. -/
def rank : Phrase :=
  let size := Phrase.optional (rule .expression)
  squares (size ++ many (the "," ++ size))

/-- The mark of a nullable type, and the marks of pointers to it. -/
def nullable : Phrase :=
  the "?" ++ many (the "*")

/-- What may follow a type that can be made nullable up to the brackets of an array. -/
def pointers : Phrase :=
  nullable <|> many (the "*")

/-- The brackets of arrays. A nullable type is not made nullable again, and there are no pointers to
arrays. -/
def ranks : Phrase :=
  many (rank ++ Phrase.optional nullable)

/-- The elements of a tuple type; there are at least two. -/
def tupleElements : Phrase :=
  let element := rule .type ++ Phrase.optional name
  element ++ the "," ++ list element

/-- A type without suffixes that can be made nullable. In front of a type the word `scoped` is no
name. -/
def namedType : Phrase :=
  predefined <|> parens tupleElements
    <|> absent (the "scoped" ++ oneOf Words.typeStart) ++ qualifiedNameBut Words.typeStart

/-- A pointer to a function. -/
def functionPointer : Phrase :=
  let convention := the "managed" <|> the "unmanaged" ++ Phrase.optional (squares (list name))
  let parameter := Phrase.optional (oneOf ["ref", "out", "in"]) ++ rule .valueType
  the "delegate" ++ the "*" ++ Phrase.optional convention
    ++ the "<" ++ many (parameter ++ the ",") ++ rule .type ++ the ">"

/-- A type that is not passed by reference. -/
def valueTypePhrase : Phrase :=
  namedType ++ pointers ++ ranks <|> functionPointer ++ many (the "*") ++ ranks

/-- An array type that is not made nullable. -/
def arrayType : Phrase :=
  (namedType ++ pointers <|> functionPointer ++ many (the "*")) ++ oneOrMore rank

/-- A type. -/
def typePhrase : Phrase :=
  the "ref" ++ (the "readonly" ++ rule .type <|> notAt ["readonly"] (rule .type))
  <|> the "scoped" ++ rule .type
  <|> rule .valueType

/-- Nothing, where a name is followed by a word that takes it for an operand. -/
def noOperation : Phrase :=
  absent (qualifiedNameBut Words.typeStart ++ oneOf Words.operators)

/-- Type arguments; they may be left open. -/
def typeArgumentList : Phrase :=
  the "<" ++ (list (rule .type) <|> many (the ",")) ++ the ">"

/-! ### Attributes -/

/-- Attributes in brackets. -/
def attributeList : Phrase :=
  let value := Phrase.optional (nameBut Words.expressionStart ++ oneOf [":", "="])
    ++ rule .expression
  let entryBut keywords := qualifiedNameBut keywords ++ Phrase.optional (parens (listOrNone value))
  let entries keywords :=
    entryBut keywords ++ many (the "," ++ entryBut []) ++ Phrase.optional (the ",")
  squares (entries Words.attributeTargets <|> oneOf Words.attributeTargets ++ the ":" ++ entries [])

/-- Attributes that may be conditional. -/
def attributePhrase : Phrase :=
  attributeList <|> branches (Phrase.optional attributeList)

/-- Nothing, where brackets do not follow or do not begin with one of the given words. Where an
expression may begin with a bracket, they are keywords in it. -/
def noBracketAt (words : List String) : Phrase :=
  absent (opens .square (oneOf words))

/-- A modifier. -/
def modifier : Phrase :=
  oneOf ("file" :: Words.modifiers)

/-- Attributes and modifiers, as they stand in front of a declaration. -/
def decorations : Phrase :=
  many (rule .attributes) ++ many modifier

/-! ### Type parameters -/

/-- Type parameters, where the given words are keywords at the first one. -/
def typeParametersBut (keywords : List String) : Phrase :=
  let parameterBut keywords := many (rule .attributes)
    ++ (oneOf ["in", "out"] ++ name <|> nameBut (["in", "out"] ++ keywords))
  the "<" ++ parameterBut keywords ++ many (the "," ++ parameterBut []) ++ the ">"

/-- What is demanded of type parameters. -/
def constraints : Phrase :=
  let demand := the "class" ++ Phrase.optional (the "?") <|> the "struct"
    <|> the "new" ++ parens .empty <|> notAt ["class", "new", "struct"] (rule .type)
  many (the "where" ++ name ++ the ":" ++ list demand)

/-! ### Parameters -/

/-- What may begin a parameter and no type, where both may stand between parentheses. -/
def parameterStart : Phrase :=
  oneOf ["in", "out", "params", "readonly", "this"] <|> the "scoped" ++ oneOf Words.typeStart
  <|> the "ref" ++ the "readonly"

/-- What may begin a parameter or an expression and no type, where all may stand between
parentheses. -/
def noTypeStart : Phrase :=
  parameterStart <|> oneOf Words.valueStart <|> rule .opensOther

/-- A type where an expression or the parameters of a function might begin as well. The given words
begin something else. -/
def openTypeBut (others : List String) : Phrase :=
  absent (rule .opensOther) ++ absent (the "ref" ++ oneOf Words.valueStart)
    ++ notAt others (rule .type)

/-- A type where an expression might begin as well, in front of a name or a parenthesis. The given
words begin something else. Brackets are looked into only if the type is followed so. -/
def declaredTypeBut (others : List String) : Phrase :=
  let named := predefined <|> anyGroup .round <|> qualifiedNameBut Words.typeStart
    <|> functionPointer
  let shape := many (oneOf ["ref", "readonly", "scoped"]) ++ named
    ++ many (oneOf ["?", "*"] <|> anyGroup .square)
  ahead (shape ++ (name <|> anyGroup .round)) ++ openTypeBut others

/-- The words that say how a parameter is passed. -/
def passing : Phrase :=
  oneOf ["this", "ref", "out", "in", "readonly"]

/-- A value that is given by default. -/
def default : Phrase :=
  Phrase.optional (the "=" ++ rule .expression)

/-- The type of a parameter. The word `scoped` in front of a type that is no name does not belong to
it. -/
def parameterType : Phrase :=
  absent (the "scoped"
    ++ (oneOf (["in", "out", "readonly", "this"] ++ Words.typeStart) <|> anyGroup .round))
    ++ notAt ["in", "out", "readonly", "ref", "this"] (rule .type)

/-- A parameter. -/
def parameter : Phrase :=
  many (rule .attributes)
    ++ (the "params" ++ rule .type ++ name
      <|> notAt ["params"] (many (passing <|> the "scoped") ++ parameterType ++ name ++ default)
      <|> nameBut Words.parameterStart ++ default)

end InteropStubs.Rule
