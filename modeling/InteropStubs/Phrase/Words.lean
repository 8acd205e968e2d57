/-!
# Keywords by place

No word is a keyword everywhere. A word is a keyword where the keyword could stand, and an
identifier everywhere else; so `void event()` declares a method, while `event` cannot be the type of
one. The lists below hold the words that are keywords at the places they are named for. The words
that begin a clause of a query, `when`, `where`, `var`, `scoped`, `file` and their like are
identifiers wherever an identifier can stand and are in none of the lists.
-/

namespace InteropStubs.Words

/-- The types that are built in. -/
def predefined : List String := [
  "bool", "byte", "char", "decimal", "double", "float", "int", "long", "object", "sbyte", "short",
  "string", "uint", "ulong", "ushort", "nint", "nuint", "void"]

/-- Where a type begins. -/
def typeStart : List String :=
  predefined ++ ["delegate", "ref"]

/-- Where a modifier can stand. -/
def modifiers : List String := [
  "abstract", "async", "const", "extern", "fixed", "internal", "new", "override", "partial",
  "private", "protected", "public", "readonly", "required", "sealed", "static", "unsafe",
  "virtual", "volatile"]

/-- The words that begin an expression and no type. -/
def valueStart : List String := [
  "__makeref", "__reftype", "__refvalue", "async", "await", "base", "checked", "default", "false",
  "new", "null", "sizeof", "stackalloc", "static", "this", "throw", "true", "typeof", "unchecked"]

/-- Where an expression begins. -/
def expressionStart : List String :=
  typeStart ++ valueStart

/-- Where an argument begins. -/
def argumentStart : List String :=
  ["in", "out"] ++ expressionStart

/-- The words that begin an argument and no type. -/
def argumentValueStart : List String :=
  ["in", "out"] ++ valueStart

/-- Where a pattern begins. -/
def patternStart : List String :=
  ["_", "not"] ++ expressionStart

/-- The words that follow an operand. -/
def operators : List String :=
  ["as", "is", "switch", "with"]

/-- The words between two patterns. -/
def connectives : List String :=
  ["and", "or"]

/-- What may stand behind a complete expression or pattern. -/
def expressionEnd : List String :=
  "in" :: connectives ++ operators

/-- The words that begin a statement and neither an expression nor a declaration. -/
def statementStart : List String := [
  "break", "continue", "do", "for", "foreach", "goto", "if", "lock", "return", "switch", "try",
  "using", "while"]

/-- The words that tell type declarations apart. -/
def typeDeclarations : List String :=
  ["class", "enum", "interface", "record", "struct"]

/-- Where a member of a body begins, behind its attributes and modifiers. -/
def memberStart : List String :=
  modifiers ++ typeDeclarations ++ ["event", "explicit", "implicit"]

/-- Behind the type of a member. -/
def behindMemberType : List String :=
  ["operator", "this"]

/-- Where a parameter begins. -/
def parameterStart : List String :=
  typeStart ++ ["in", "out", "params", "readonly", "this"]

/-- The targets that attributes may name. -/
def attributeTargets : List String :=
  ["event", "field", "method", "param", "property", "return", "type", "typevar"]

end InteropStubs.Words
