import InteropStubs.Stub.Member

/-!
# Class stubs

An interface becomes a class that holds a handle `_js` and then its members. A global object is a
static class inside the container class, whose handle is looked up on first use; a wrapped object
is a class with one handle per instance.
-/

namespace InteropStubs

/-- The static class of a global object, with `members` inside. -/
def Interface.emitGlobalObject (i : Interface) (config : Config) (members : Emit Unit) :
    Emit Unit := do
  let handle := config.handleType
  let lookup := "(" ++ handle ++ ")" ++ config.globalLookup ++ "(nameof(" ++ i.name ++ "))"
  Emit.block ("public static partial class " ++ config.globalContainer) do
    Emit.block ("public static partial class " ++ i.name) do
      Emit.line ("private static readonly System.Lazy<" ++ handle ++ "> __js = "
        ++ "new System.Lazy<" ++ handle ++ ">(() => " ++ lookup ++ ");")
      Emit.line ""
      Emit.line ("private static " ++ handle ++ " _js => __js.Value;")
      Emit.line ""
      members
  Emit.line ""

/-- The class around the handle of a wrapped object, with `members` inside. -/
def Interface.emitObjectWrapper (i : Interface) (config : Config) (members : Emit Unit) :
    Emit Unit := do
  let handle := config.handleType
  Emit.block ("public partial class " ++ i.name) do
    Emit.line ("private readonly " ++ handle ++ " _js;")
    Emit.line ""
    Emit.block ("public " ++ i.name ++ "(" ++ handle ++ " js)") do
      Emit.line "_js = js;"
    Emit.line ""
    Emit.line ("public static " ++ i.name ++ "? Wrap(" ++ handle
      ++ "? js) => js != null ? new " ++ i.name ++ "(js) : null;")
    Emit.line ""
    Emit.line ("public static implicit operator " ++ handle ++ "(" ++ i.name
      ++ " obj) => obj._js;")
    Emit.line ""
    members
  Emit.line ""

end InteropStubs
