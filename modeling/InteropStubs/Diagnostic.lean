/-!
# Diagnostics

What the library says when it refuses a declaration file: a `Cause`, the `Location` it is
reported at, and the text of both. A `Cause` says why; `Cause.detail` is the one place where its
wording is fixed; a `Diagnostic` is the located text that a reader of the output sees.
-/

namespace InteropStubs

/-- A place in a text: lines count from one, columns from zero. -/
structure Location where
  line : Int
  column : Int
deriving DecidableEq, Repr

/-- A located message. -/
structure Diagnostic where
  location : Location
  detail : String
deriving DecidableEq, Repr

/-- The message with its location in front. -/
def Diagnostic.message (d : Diagnostic) : String :=
  "(" ++ toString d.location.line ++ ", " ++ toString d.location.column ++ "): " ++ d.detail

/-- Why a declaration file is refused. -/
inductive Cause where
  /-- Something stands where it cannot: a piece of broken text, or a declaration with no stub. -/
  | unexpected (what : String)
  /-- A token that the text needs is not there. -/
  | missing (token : String)
  /-- An interface has no base list, so nothing says how it is bound. -/
  | noBase (interface : String)
  /-- An interface has more than one base. -/
  | severalBases (interface : String)
  /-- The only base of an interface is no marker. -/
  | unknownBase (base : String)
  /-- An interface member is neither a method nor a property. -/
  | unexpectedMember (text : String)
deriving DecidableEq, Repr

/-- The wording of a cause. -/
def Cause.detail : Cause → String
  | unexpected what => what ++ " was not expected."
  | missing token => "Expected '" ++ token ++ "'."
  | noBase interface => "Expected interface " ++ interface ++ " to have base interface."
  | severalBases interface =>
    "Expected interface " ++ interface ++ " to have only 1 base interface."
  | unknownBase base => "Unexpected base interface: " ++ base
  | unexpectedMember text => "Unexpected member: " ++ text

/-- The diagnostic for a cause at a location. -/
def Cause.at (c : Cause) (location : Location) : Diagnostic :=
  ⟨location, c.detail⟩

end InteropStubs
