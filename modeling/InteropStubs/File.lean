import InteropStubs.Node.FirstError
import InteropStubs.Node.OfTrees
import InteropStubs.Text.Position
import InteropStubs.Token.OfText
import InteropStubs.Tree.Nesting

/-!
# Declaration files

A `File` is a text and the nodes it was read into. Every text can be read; `File.parse` refuses a
text in which a node is broken, and reports the first one.
-/

namespace InteropStubs

/-- A declaration file. -/
structure File where
  text : List Char
  nodes : List Node

namespace File

/-- Read a text, leaving broken nodes where it is no declaration file. -/
def read (source : String) : File :=
  let text := source.toList
  ⟨text, Node.ofTrees (Tree.ofTokens (Token.ofChars text))⟩

/-- Where an offset of the file is reported to stand. -/
def locate (f : File) (offset : Nat) : Location :=
  Text.locate f.text offset

/-- Where a node is reported to stand. -/
def locationOf (f : File) (n : Node) : Location :=
  f.locate n.span.start

/-- Read a text that must be a declaration file. -/
def parse (source : String) : Except Diagnostic File :=
  let f := read source
  match Node.firstError? f.nodes with
  | some n => .error (n.cause.at (f.locationOf n))
  | none => .ok f

/-- Whether a text is a declaration file. -/
def accepts (source : String) : Bool :=
  (parse source).isOk

end File

end InteropStubs
