import InteropStubs.Binding
import InteropStubs.File
import InteropStubs.Stub.Class

/-!
# Generation

The nodes of a file are written in order. A namespace becomes a block around its members, a using
directive is copied, an interface becomes the class that its base asks for, and every other node
stops the generation. Whatever is open when generation stops is closed on the way out.
-/

namespace InteropStubs

/-- Stop with a cause at a node. -/
def Emit.refuse (locate : Nat → Location) (n : Node) (cause : Cause) : Emit Unit :=
  throw (.refused (cause.at (locate n.span.start)))

namespace Node

/-- The stub of an interface member. -/
def emitMember (config : Config) (locate : Nat → Location) (isStatic : Bool) (n : Node) :
    Emit Unit :=
  match n with
  | method _ signature => signature.emit isStatic
  | property _ signature => signature.emit config isStatic
  | _ => Emit.refuse locate n (.unexpectedMember n.span.text)

/-- The class of an interface with its members. -/
def emitInterface (config : Config) (locate : Nat → Location) (n : Node) (header : Interface)
    (members : List Node) : Emit Unit :=
  match header.binding config with
  | .ok .globalObject =>
    header.emitGlobalObject config (members.forM (emitMember config locate true))
  | .ok .objectWrapper =>
    header.emitObjectWrapper config (members.forM (emitMember config locate false))
  | .error cause => Emit.refuse locate n cause

mutual

/-- What is generated for a node of a file or namespace. -/
def emit (config : Config) (locate : Nat → Location) : Node → Emit Unit
  | namespaceBlock _ name members =>
    Emit.block ("namespace " ++ name) (emitAll config locate members)
  | usingDirective span => Emit.line span.text
  | n@(interface _ header members) => emitInterface config locate n header members
  | n => Emit.refuse locate n (.unexpected n.typeName)

/-- What is generated for a list of nodes. -/
def emitAll (config : Config) (locate : Nat → Location) : List Node → Emit Unit
  | [] => pure ()
  | n :: ns => do
    emit config locate n
    emitAll config locate ns

end

mutual

/-- The interfaces at or below a node, as far as stubs are made of them, in document order. -/
def interfacesIn : Node → List (Node × Interface)
  | namespaceBlock _ _ members => interfaces members
  | n@(interface _ header _) => [(n, header)]
  | _ => []

/-- The interfaces of a list of nodes, in document order. -/
def interfaces : List Node → List (Node × Interface)
  | [] => []
  | n :: ns => interfacesIn n ++ interfaces ns

end

end Node

namespace File

/-- What is generated for a file, without the header. -/
def emit (config : Config) (f : File) : Emit Unit :=
  Node.emitAll config f.locate f.nodes

/-- The interfaces of a file, each with its binding or the reason why it has none. -/
def bindings (config : Config) (f : File) : List (String × Except Diagnostic Binding) :=
  (Node.interfaces f.nodes).map fun (n, header) =>
    (header.name, (header.binding config).mapError fun cause => cause.at (f.locationOf n))

end File

/-- The program that reads a source and writes its stubs. -/
def Emit.source (config : Config) (source : String) : Emit Unit :=
  match File.parse source with
  | .ok f => f.emit config
  | .error diagnostic => throw (.refused diagnostic)

/-- The stubs of a source, with the header of generated files. -/
def generate (config : Config) (source : String) : Except Stop String :=
  match File.parse source with
  | .error diagnostic => .error (.refused diagnostic)
  | .ok f =>
    let program := do
      Emit.lines fileHeader
      f.emit config
    match program.runOn { unit := config.indent } with
    | (.ok (), e) => .ok e.output
    | (.error stop, _) => .error stop

/-- Write sources one after the other through one emitter that goes on after a failure: how each
ended, and the emitter after it. -/
def generateAll (config : Config) (e : Emitter) : List String → List (Except Stop Unit × Emitter)
  | [] => []
  | source :: sources =>
    let (result, next) := (Emit.source config source).runOn e
    (result, next) :: generateAll config next sources

end InteropStubs
