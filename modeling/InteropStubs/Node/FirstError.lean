import InteropStubs.Diagnostic
import InteropStubs.Node.Basic
import InteropStubs.SyntaxTree

/-!
# The first error of a node list

A list of nodes is seen as a syntax tree, with one more node on top that stands for the whole of
it. The search for an error goes down this tree, and so it finds the first broken node in document
order, a container before its members.
-/

namespace InteropStubs.Node

/-- A node that stands for broken or missing text. -/
def isBroken : Node → Bool
  | error .. | missing .. => true
  | _ => false

mutual

/-- Whether a node is broken or has a broken node below it. -/
def hasError : Node → Bool
  | namespaceBlock _ _ ms | interface _ _ ms | other _ _ ms => anyHasError ms
  | usingDirective _ | method _ _ | property _ _ => false
  | error .. | missing .. => true

/-- `hasError` for some node of a list. -/
def anyHasError : List Node → Bool
  | [] => false
  | n :: ns => hasError n || anyHasError ns

end

mutual

/-- A node as a syntax tree. -/
def tree : Node → SyntaxTree (Option Node)
  | n@(namespaceBlock _ _ ms) | n@(interface _ _ ms) | n@(other _ _ ms) =>
      .node (some n) false false (anyHasError ms) (trees ms)
  | n@(usingDirective _) | n@(method _ _) | n@(property _ _) => .node (some n) false false false []
  | n@(error ..) => .node (some n) true false true []
  | n@(missing ..) => .node (some n) false true true []

/-- The nodes of a list as syntax trees. -/
def trees : List Node → List (SyntaxTree (Option Node))
  | [] => []
  | n :: ns => tree n :: trees ns

end

/-- The syntax tree of a list of nodes. Its root is none of them. -/
def root (ns : List Node) : SyntaxTree (Option Node) :=
  .node none false false (anyHasError ns) (trees ns)

/-- The broken node of a list that is reported, if there is one. -/
def firstError? (ns : List Node) : Option Node :=
  if (root ns).hasError then (root ns).firstError.value else none

/-- Why a broken node is reported. -/
def cause (n : Node) : Cause :=
  match n with
  | missing _ token => .missing token
  | n => .unexpected n.typeName

end InteropStubs.Node
