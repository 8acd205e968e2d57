import InteropStubs.Declaration

/-!
# Nodes

A declaration file is read into a list of nodes. Namespaces, using directives, interfaces, methods
and properties carry what the generator needs of them; every other declaration is an `other` node
of some `Kind`. Where the text is no declaration, the reader leaves an `error` or a `missing`
node, so that reading itself never fails and the first fault can be searched for afterwards.
-/

namespace InteropStubs

/-- A stretch of the source: where it starts, counted in characters, and its text. -/
structure Span where
  start : Nat
  text : String
deriving DecidableEq, Repr

/-- The kinds of declaration that no stub is made of. -/
inductive Kind where
  | classType | structType | enumType | recordType | delegateType
  | fileScopedNamespace | externAlias | globalAttribute | statement
  | conditional | shebang
  | field | event | eventField | indexer
  | operator | conversion | constructor | destructor
deriving DecidableEq, Repr

/-- The name under which a kind is reported. -/
def Kind.name : Kind → String
  | classType => "class_declaration"
  | structType => "struct_declaration"
  | enumType => "enum_declaration"
  | recordType => "record_declaration"
  | delegateType => "delegate_declaration"
  | fileScopedNamespace => "file_scoped_namespace_declaration"
  | externAlias => "extern_alias_directive"
  | globalAttribute => "global_attribute"
  | statement => "global_statement"
  | conditional => "preproc_if"
  | shebang => "shebang_directive"
  | field => "field_declaration"
  | event => "event_declaration"
  | eventField => "event_field_declaration"
  | indexer => "indexer_declaration"
  | operator => "operator_declaration"
  | conversion => "conversion_operator_declaration"
  | constructor => "constructor_declaration"
  | destructor => "destructor_declaration"

/-- One node of a file. -/
inductive Node where
  | namespaceBlock (span : Span) (name : String) (members : List Node)
  | usingDirective (span : Span)
  | interface (span : Span) (header : Interface) (members : List Node)
  | method (span : Span) (signature : Method)
  | property (span : Span) (signature : Property)
  | other (span : Span) (kind : Kind) (members : List Node)
  /-- Text that is no declaration; `what` is what it is reported as. -/
  | error (span : Span) (what : String)
  /-- The place of a token that is not there. -/
  | missing (start : Nat) (token : String)

namespace Node

/-- The stretch of the source that a node was read from. -/
def span : Node → Span
  | namespaceBlock s _ _ | usingDirective s | interface s _ _ | method s _ | property s _
  | other s _ _ | error s _ => s
  | missing start _ => ⟨start, ""⟩

/-- The name under which a node is reported. -/
def typeName : Node → String
  | namespaceBlock .. => "namespace_declaration"
  | usingDirective .. => "using_directive"
  | interface .. => "interface_declaration"
  | method .. => "method_declaration"
  | property .. => "property_declaration"
  | other _ kind _ => kind.name
  | error _ what => what
  | missing _ token => token

/-- The nodes directly below a node. -/
def members : Node → List Node
  | namespaceBlock _ _ ms | interface _ _ ms | other _ _ ms => ms
  | usingDirective _ | method _ _ | property _ _ | error _ _ | missing _ _ => []

end Node

end InteropStubs
