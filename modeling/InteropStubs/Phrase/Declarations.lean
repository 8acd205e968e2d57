import InteropStubs.Phrase.Statements

/-!
# Declarations

The phrases of declarations. A type or namespace takes a phrase for its body, so that it can be
recognised with or without a look into the body.
-/

namespace InteropStubs.Rule

open Phrase

/-! ### Parts -/

/-- A semicolon that touches what is in front of it, if there is one. -/
def touchingSemicolon : Phrase :=
  touching ";" <|> absent (touching ";")

/-- The end of a type or namespace: a body, with a semicolon only if it touches the closing brace. -/
def closedBody (body : Phrase) : Phrase :=
  body ++ touchingSemicolon

/-- The bases of a type, possibly with arguments behind the last one. -/
def baseList : Phrase :=
  the ":" ++ list (rule .type) ++ Phrase.optional (parens (rule .arguments))

/-- The interface that a member says it implements, in front of the member's name. -/
def owner : Phrase :=
  let part := simpleNameBut Words.behindMemberType
  let first := nameBut Words.behindMemberType ++ the "::" ++ simpleName <|> part
  Phrase.optional (first ++ the "." ++ many (part ++ the "."))

/-- The type of a member, behind attributes and modifiers. The words `file` and `scoped` are types
only in front of what cannot go on with them otherwise. -/
def memberType : Phrase :=
  let behind := oneOf Words.behindMemberType
  absent (the "ref" ++ the "struct")
    ++ absent (the "file" ++ oneOf (Words.typeStart ++ Words.memberStart))
    ++ (ahead (the "scoped" ++ behind) ++ the "scoped"
      <|> absent (the "scoped" ++ behind) ++ notAt Words.memberStart (rule .type))

/-- The name of a member behind its type. -/
def memberName : Phrase :=
  nameBut Words.behindMemberType

/-- What stands in front of a member. Where nothing does, two more words are keywords. -/
def memberDecorations : Phrase :=
  absent (oneOf ["namespace", "using"] <|> the "global" ++ the "using")
    ++ many (rule .attributes)
    ++ many (oneOf Words.modifiers <|> the "file" ++ absent (oneOf Words.behindMemberType))

/-- The accessors of a property, an indexer or an event. -/
def accessors : Phrase :=
  braces (many (decorations ++ nameBut Words.modifiers ++ rule .body))

/-- A value behind an arrow. -/
def arrowBody : Phrase :=
  the "=>" ++ rule .expression ++ the ";"

/-- A value behind an equals sign. -/
def initialValue : Phrase :=
  the "=" ++ rule .expression ++ the ";"

/-- The type parameters of a method. -/
def methodTypeParameters : Phrase :=
  Phrase.optional (typeParametersBut Words.typeStart)

/-! ### Types -/

/-- The members of an enumeration. -/
def enumBody : Phrase :=
  let member := many (rule .attributes) ++ name ++ default
  (listOrNone member <|> branches (Phrase.optional member)) ++ Phrase.optional (the ",")

/-- What may stand between the name of a type and its body. -/
def typeHeader : Phrase :=
  many (typeParametersBut [] <|> parens (rule .parameters) <|> baseList) ++ constraints

/-- The end of a type: a body or a semicolon. -/
def typeEnd (body : Phrase) : Phrase :=
  closedBody body <|> the ";"

/-- A class with the given body. -/
def classType (body : Phrase) : Phrase :=
  decorations ++ the "class" ++ name ++ typeHeader ++ typeEnd body

/-- A structure with the given body. -/
def structType (body : Phrase) : Phrase :=
  decorations ++ Phrase.optional (the "ref") ++ the "struct" ++ name ++ typeHeader ++ typeEnd body

/-- A record with the given body. -/
def recordType (body : Phrase) : Phrase :=
  decorations ++ the "record"
    ++ (oneOf ["class", "struct"] ++ name <|> nameBut ["class", "struct"])
    ++ typeHeader ++ typeEnd body

/-- An interface with the given body. -/
def interfaceType (body : Phrase) : Phrase :=
  decorations ++ the "interface" ++ name ++ Phrase.optional (typeParametersBut [])
    ++ Phrase.optional baseList ++ constraints ++ typeEnd body

/-- An enumeration. -/
def enumType : Phrase :=
  decorations ++ the "enum" ++ name ++ Phrase.optional baseList ++ closedBody (braces enumBody)

/-- A delegate. -/
def delegateType : Phrase :=
  decorations ++ the "delegate" ++ rule .type ++ name ++ Phrase.optional (typeParametersBut [])
    ++ parens (rule .parameters) ++ constraints ++ the ";"

/-- A type with the given body. -/
def typeDeclaration (body : Phrase) : Phrase :=
  classType body <|> structType body <|> recordType body <|> interfaceType body
    <|> enumType <|> delegateType

/-! ### Members -/

/-- A method. -/
def method : Phrase :=
  memberDecorations ++ memberType ++ owner ++ memberName ++ methodTypeParameters
    ++ parens (rule .parameters) ++ constraints ++ rule .body

/-- A property. -/
def property : Phrase :=
  memberDecorations ++ memberType ++ owner ++ memberName
    ++ (accessors ++ Phrase.optional initialValue <|> arrowBody)

/-- A field. -/
def field : Phrase :=
  memberDecorations ++ memberType ++ declaratorsBut Words.behindMemberType [] ++ the ";"

/-- An event that is declared like a field. -/
def eventField : Phrase :=
  decorations ++ the "event" ++ rule .type ++ declaratorsBut [] [] ++ the ";"

/-- An event. -/
def event : Phrase :=
  decorations ++ the "event" ++ rule .type
    ++ Phrase.optional (qualifiedNameBut [] ++ the ".") ++ name ++ (accessors <|> the ";")

/-- An indexer. -/
def indexer : Phrase :=
  memberDecorations ++ memberType ++ owner ++ the "this" ++ squares (rule .parameters)
    ++ (accessors <|> arrowBody)

/-- The operators that a type can define. -/
def definableOperator : Phrase :=
  let shift := the ">" ++ touching ">" ++ Phrase.optional (touching ">")
  shift <|> oneOf ["!", "~", "++", "--", "true", "false", "+", "-", "*", "/", "%", "^", "|", "&",
    "<<", "==", "!=", ">", "<", ">=", "<="]

/-- An operator. -/
def operator : Phrase :=
  memberDecorations ++ memberType ++ owner ++ the "operator" ++ Phrase.optional (the "checked")
    ++ definableOperator ++ parens (rule .parameters) ++ rule .body

/-- A conversion. -/
def conversion : Phrase :=
  decorations ++ oneOf ["implicit", "explicit"] ++ the "operator"
    ++ Phrase.optional (qualifiedNameBut ("checked" :: Words.typeStart) ++ the ".")
    ++ (the "checked" ++ rule .type <|> notAt ["checked"] (rule .type))
    ++ parens (rule .parameters) ++ rule .body

/-- A constructor. -/
def constructor : Phrase :=
  let initial := the ":" ++ oneOf ["base", "this"] ++ parens (rule .arguments)
  memberDecorations ++ nameBut (Words.typeStart ++ Words.memberStart)
    ++ parens (rule .parameters) ++ Phrase.optional initial ++ rule .body

/-- A destructor. -/
def destructor : Phrase :=
  many (rule .attributes) ++ Phrase.optional (the "extern") ++ the "~" ++ name
    ++ parens (rule .parameters) ++ rule .body

/-! ### Namespaces and files -/

/-- A using directive, where the given words are keywords behind its first word. -/
def usingDirectiveBut (keywords : List String) : Phrase :=
  let named keywords := nameBut keywords ++ the "=" ++ rule .type
    <|> qualifiedNameBut keywords
  let fixed := ["static", "unsafe"]
  let fromStatic keywords := the "static" ++ (the "unsafe" ++ qualifiedNameBut []
    <|> qualifiedNameBut ("unsafe" :: keywords))
  let fromUnsafe keywords := the "unsafe" ++ named keywords
  let target keywords := fromStatic keywords <|> fromUnsafe keywords <|> named (fixed ++ keywords)
  (the "global" ++ the "using" ++ target [] <|> the "using" ++ target keywords) ++ the ";"

/-- A namespace with the given body. -/
def namespaceBlock (body : Phrase) : Phrase :=
  the "namespace" ++ qualifiedNameBut [] ++ closedBody body

/-- A namespace that goes to the end of the file. -/
def fileScopedNamespace : Phrase :=
  the "namespace" ++ qualifiedNameBut [] ++ the ";"

/-- An alias that is defined elsewhere. -/
def externAlias : Phrase :=
  the "extern" ++ the "alias" ++ name ++ the ";"

/-- The targets of attributes that no declaration follows. -/
def globalTargets : List String :=
  ["assembly", "module"]

/-- Attributes of the whole program. -/
def globalAttribute : Phrase :=
  let value := Phrase.optional (nameBut Words.expressionStart ++ oneOf [":", "="])
    ++ rule .expression
  let entry := qualifiedNameBut [] ++ Phrase.optional (parens (listOrNone value))
  squares (oneOf globalTargets ++ the ":" ++ list entry ++ Phrase.optional (the ","))

/-- A declaration in a body. -/
def declarationPhrase : Phrase :=
  let members := many (rule .declaration)
  typeDeclaration (braces members) <|> namespaceBlock (braces members) <|> usingDirectiveBut []
  <|> branches members
  <|> method <|> property <|> field <|> eventField <|> event <|> indexer <|> operator
  <|> conversion <|> constructor <|> destructor

/-- The words that are keywords behind `using` in a file, where variables may follow it. -/
def usingWords : List String :=
  Words.typeStart ++ Words.modifiers

/-- A type in a file, with the given body. An expression may begin there as well, so more words
are keywords in its attributes. -/
def fileType (body : Phrase) : Phrase :=
  noBracketAt (globalTargets ++ Words.argumentStart)
    ++ absent (the "new" ++ oneOf ["delegate", "ref"]) ++ typeDeclaration body

/-- Nothing, where a file goes on with a declaration that looks like a statement at first. -/
def noDeclaration : Phrase :=
  let directed := nameBut usingWords
  absent (decorations ++ (oneOf Words.typeDeclarations <|> the "ref" ++ the "struct"))
    ++ absent (the "namespace" <|> the "global" ++ the "using" <|> the "extern" ++ the "alias"
      <|> the "using" ++ oneOf ["static", "unsafe"] ++ directed
      <|> the "using" ++ the "static" ++ the "unsafe" ++ directed)

/-- A statement in a file. -/
def fileStatement : Phrase :=
  noBracketAt globalTargets ++ noDeclaration ++ rule .statement

/-- What may stand in a file: a declaration, with the given body if it has one, or a statement. -/
def fileItemWith (body : Phrase) : Phrase :=
  globalAttribute <|> externAlias <|> usingDirectiveBut usingWords
  <|> fileScopedNamespace <|> namespaceBlock body
  <|> fileType body
  <|> fileStatement

end InteropStubs.Rule
