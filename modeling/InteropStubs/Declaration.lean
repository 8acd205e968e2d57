/-!
# Declarations

What is kept of an interface and of its methods and properties: names, and types as they were
written. Attributes, modifiers, type parameters, constraints and bodies leave no trace here.
-/

namespace InteropStubs

/-- A parameter: its type as written, empty if none is given, and its name. -/
structure Parameter where
  type : String
  name : String
deriving DecidableEq, Repr

/-- A method signature. -/
structure Method where
  name : String
  /-- The return type as written. -/
  returns : String
  parameters : List Parameter
  /-- The parameter list as written, with its parentheses. -/
  parameterList : String
deriving DecidableEq, Repr

/-- Only the bare word says that nothing is returned. -/
def Method.returnsVoid (m : Method) : Bool :=
  m.returns == "void"

/-- A property. -/
structure Property where
  name : String
  /-- The type as written. -/
  type : String
  /-- The accessor words, in order and with repetitions. -/
  accessors : List String
deriving DecidableEq, Repr

/-- The accessor words that a property keeps. -/
def accessorWords : List String := ["get", "set", "init"]

/-- An interface without its members. -/
structure Interface where
  name : String
  /-- The bases as written, or nothing if there is no base list. -/
  bases : Option (List String)
deriving DecidableEq, Repr

end InteropStubs
