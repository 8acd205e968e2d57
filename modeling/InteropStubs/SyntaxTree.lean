/-!
# Syntax trees

A reader that cannot refuse a text marks the faults in the tree that it returns: a node may stand
for text that does not fit or for a token that is not there, and every node says whether there is
such a node at or below it. `SyntaxTree.firstError` follows these marks down to the fault that is
reported. At each level it takes the first child with a mark, and it never comes back up.
-/

namespace InteropStubs

/-- A syntax tree, whose nodes carry a value and the marks of the reader. -/
inductive SyntaxTree (α : Type) where
  | node (value : α) (isError isMissing hasError : Bool) (children : List (SyntaxTree α))

namespace SyntaxTree

variable {α : Type}

def value : SyntaxTree α → α
  | node v _ _ _ _ => v

/-- Whether the node stands for text that does not fit. -/
def isError : SyntaxTree α → Bool
  | node _ e _ _ _ => e

/-- Whether the node stands for a token that is not there. -/
def isMissing : SyntaxTree α → Bool
  | node _ _ m _ _ => m

/-- Whether the reader says that there is a fault at or below the node. -/
def hasError : SyntaxTree α → Bool
  | node _ _ _ h _ => h

def children : SyntaxTree α → List (SyntaxTree α)
  | node _ _ _ _ ts => ts

/-- Whether the node itself is a fault. -/
def isBroken (t : SyntaxTree α) : Bool :=
  t.isError || t.isMissing

mutual

/-- The fault that is reported of a tree: the first one below its root, else the root. -/
def firstError : SyntaxTree α → SyntaxTree α
  | node v e m h ts => (firstErrorAmong? ts).getD (node v e m h ts)

/-- The fault that is reported of some trees, which stand side by side. -/
def firstErrorAmong? : List (SyntaxTree α) → Option (SyntaxTree α)
  | [] => none
  | t :: ts =>
      if t.isBroken then some t
      else if t.hasError then some (firstError t)
      else firstErrorAmong? ts

end

end SyntaxTree

end InteropStubs
