import InteropStubs.Phrase.Grammar

/-!
# Runs

The declarations of a list follow one another without separators, and each shows where it ends: at
a semicolon or behind a body. So a list of trees is cut into *runs* before anything is read. Cutting
looks only at the trees of a run and at the next one, and it never fails: what cannot be a
declaration makes up a run, too.
-/

namespace InteropStubs

/-- Where declarations stand: in a file, where statements may stand as well, or in a body. -/
inductive Scope where
  | file
  | body
deriving DecidableEq, Repr

namespace Run

open Phrase Rule

/-- The number of trees up to and including the first semicolon, all trees if there is none. -/
def throughSemicolon : List Tree → Nat
  | [] => 0
  | t :: ts => if t.isText ";" then 1 else throughSemicolon ts + 1

/-- Whether a tree is a keyword of a declaration whose body may be followed by a semicolon. -/
def isBlockKeyword (t : Tree) : Bool :=
  ("namespace" :: Words.typeDeclarations).any t.isText

/-- The number of trees behind a body that still belong to its declaration: the value of a
property, or a semicolon that touches the body of a namespace or type. -/
def behindBody (isBlock : Bool) : List Tree → Nat
  | [] => 0
  | t :: ts =>
    if t.isText "=" then throughSemicolon ts + 1
    else if isBlock && t.isText ";" && t.head.isTight then 1
    else 0

/-- The number of trees of a declaration: through its semicolon, or through its body and what
belongs to it. A value may hold braces of its own and always ends with a semicolon. The flag
`isBlock` says that a keyword of a namespace or type was passed. -/
def declarationSize (isBlock : Bool) : List Tree → Nat
  | [] => 0
  | t :: ts =>
    if t.isText ";" then 1
    else if t.isGroup .curly then behindBody isBlock ts + 1
    else if t.isText "=" || t.isText "=>" then throughSemicolon ts + 1
    else declarationSize (isBlock || isBlockKeyword t) ts + 1

/-- The number of trees of a declaration or statement of a file, if one stands here. Bodies are not
looked into. -/
def fileItemSize? (ts : List Tree) : Option Nat :=
  ((fileItemWith (anyGroup .curly)).sizes ts).getLast?

/-- Whether a tree is a conditional that holds attributes of the declaration behind it. One without
anything in it is a declaration of its own. -/
def isConditionalAttribute (t : Tree) : Bool :=
  (branches (Phrase.optional attributeList)).fits [t] && !(branches .empty).fits [t]

/-- Whether a tree is a run of its own, wherever it stands: a conditional, broken text, or a
bracket that closes nothing. -/
def isAlone (t : Tree) : Bool :=
  match t with
  | .group bracket _ _ _ => bracket == .conditional && !isConditionalAttribute t
  | .token u =>
    match u.kind with
    | .mark => [")", "]", closeBrace].contains u.text
    | .conditional | .shebang | .broken _ => true
    | _ => false

/-- The number of trees of the run that begins with `t` in front of `ts`, at least one. -/
def size (scope : Scope) (t : Tree) (ts : List Tree) : Nat :=
  if isAlone t then 1
  else match scope with
  | .body => declarationSize false (t :: ts)
  | .file => (fileItemSize? (t :: ts)).getD (declarationSize false (t :: ts))

/-- The runs of a list of trees, where `skip` trees of the current run are still to pass. -/
def cut (scope : Scope) : (skip : Nat) → List Tree → List (List Tree)
  | _, [] => []
  | skip + 1, _ :: ts => cut scope skip ts
  | 0, t :: ts =>
    let more := size scope t ts - 1
    (t :: ts.take more) :: cut scope more ts

end Run

/-- The runs of a list of trees. -/
def Tree.runs (scope : Scope) (ts : List Tree) : List (List Tree) :=
  Run.cut scope 0 ts

end InteropStubs
