import InteropStubs.Config
import InteropStubs.Declaration
import InteropStubs.Emitter.Basic

/-!
# Member stubs

The stub of a method invokes the host object's member of the same name through the handle `_js`
and forwards the parameters in order. The stub of a property has an accessor block that is empty
unless the configuration asks for forwarding.
-/

namespace InteropStubs

/-- How a stub begins. -/
def Emit.visibility (isStatic : Bool) : Emit Unit := do
  write "public "
  if isStatic then write "static "

/-- The stub of a method. -/
def Method.emit (m : Method) (isStatic : Bool) : Emit Unit := do
  Emit.visibility isStatic
  Emit.line (m.returns ++ " " ++ m.name ++ m.parameterList)
  Emit.line openBrace
  Emit.indent
  unless m.returnsVoid do
    Emit.write ("return (" ++ m.returns ++ ")")
  Emit.write ("_js.Invoke(nameof(" ++ m.name ++ ")")
  m.parameters.forM fun p => Emit.write (", " ++ p.name)
  Emit.line ");"
  Emit.dedent
  Emit.line closeBrace
  Emit.line ""

/-- The line that forwards one accessor: `get` reads, every other word writes. -/
def Property.accessorLine (p : Property) (word : String) : String :=
  if word == "get" then
    "get => _js.GetObjectProperty<" ++ p.type ++ ">(nameof(" ++ p.name ++ "));"
  else
    word ++ " => _js.SetObjectProperty(nameof(" ++ p.name ++ "), value);"

/-- The stub of a property. -/
def Property.emit (p : Property) (config : Config) (isStatic : Bool) : Emit Unit := do
  Emit.visibility isStatic
  Emit.line (p.type ++ " " ++ p.name)
  Emit.line openBrace
  if config.propertyAccessors then
    Emit.indent
    Emit.lines (p.accessors.map p.accessorLine)
    Emit.dedent
  Emit.line closeBrace
  Emit.line ""

end InteropStubs
