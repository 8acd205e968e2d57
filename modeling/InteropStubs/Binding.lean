import InteropStubs.Config
import InteropStubs.Declaration
import InteropStubs.Diagnostic

/-!
# Bindings

An interface names how it is bound by its only base, which must be one of the two configured
markers. If both markers are the same text, the base means a global object.
-/

namespace InteropStubs

/-- How an interface is bound to host objects. -/
inductive Binding where
  | globalObject
  | objectWrapper
deriving DecidableEq, Repr

/-- The binding that the bases of an interface ask for. An empty base list counts as one base
without text. -/
def Interface.binding (i : Interface) (config : Config) : Except Cause Binding :=
  match i.bases with
  | none => .error (.noBase i.name)
  | some (_ :: _ :: _) => .error (.severalBases i.name)
  | some bases =>
    let base := bases.headD ""
    if base = config.globalObjectMarker then .ok .globalObject
    else if base = config.objectWrapperMarker then .ok .objectWrapper
    else .error (.unknownBase base)

end InteropStubs
