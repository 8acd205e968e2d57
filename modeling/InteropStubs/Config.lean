/-!
# Configuration

The names that generated code depends on, the indentation unit, and whether properties forward
their accessors.
-/

namespace InteropStubs

/-- What a user may set; the defaults are those of the command line. -/
structure Config where
  /-- The base that marks an interface as a global object. -/
  globalObjectMarker : String := "JSGlobalObject"
  /-- The base that marks an interface as a wrapped object. -/
  objectWrapperMarker : String := "JSObjectWrapper"
  /-- The type of the handle that every stub calls through. -/
  handleType : String := "JSObject"
  /-- The function that finds a global object by name. -/
  globalLookup : String := "Runtime.GetGlobalObject"
  /-- The class around all global objects. -/
  globalContainer : String := "JS"
  /-- The text of one step of indentation. -/
  indent : String := "    "
  /-- Forward `get` and `set`; otherwise accessor blocks stay empty. -/
  propertyAccessors : Bool := false
deriving DecidableEq, Repr

/-- The lines that open every generated file. -/
def fileHeader : List String := ["// <auto-generated />", "#nullable enable"]

end InteropStubs
