import InteropStubs.Node.Basic
import InteropStubs.Node.Reader
import InteropStubs.Node.Run
import InteropStubs.Text.Position

/-!
# Nodes of token trees

Every run becomes one node. A run that is a declaration becomes the node of that declaration; of
its body, if it has one, nodes are made in the same way. In a run that is none, the fault is
looked for: a bracket that is not closed, broken text, a missing semicolon, text that would have to
be left out, and else the run as a whole.
-/

namespace InteropStubs

namespace Node

open Phrase Rule Run

/-! ### Declarations that leave no trace but their kind -/

/-- The type declarations other than interfaces, with their kinds. Their bodies are not looked
into. -/
def typeKinds : List (Kind × Phrase) :=
  let body := anyGroup .curly
  [(.classType, classType body), (.structType, structType body), (.recordType, recordType body),
    (.enumType, enumType), (.delegateType, delegateType)]

/-- The members other than methods and properties, with their kinds. An earlier entry goes before a
later one. -/
def memberKinds : List (Kind × Phrase) :=
  [(.eventField, eventField), (.event, event), (.conversion, conversion),
    (.destructor, destructor), (.indexer, indexer), (.operator, operator), (.field, field),
    (.constructor, constructor)]

/-- The declarations that may stand only in a file, statements among them, with their kinds. -/
def fileKinds : List (Kind × Phrase) :=
  [(.fileScopedNamespace, fileScopedNamespace), (.externAlias, externAlias),
    (.globalAttribute, globalAttribute), (.statement, fileStatement)]

/-- What is in the body of a run: in its last group in braces. -/
def bodyOf (run : List Tree) : List Tree :=
  match run.reverse.find? (Tree.isGroup .curly) with
  | some (.group _ _ inner _) => inner
  | _ => []

/-- The first kind of a list whose phrase fits. -/
def kindOf? (kinds : List (Kind × Phrase)) (ts : List Tree) : Option Kind :=
  (kinds.find? fun k => k.2.fits ts).map Prod.fst

/-! ### One run -/

/-- The span of a run. -/
def spanOf (run : List Tree) : Span :=
  ⟨Tree.startOf run, Tree.verbatim run⟩

/-- The using directive that a run is. What counts as a keyword in it depends on where it stands. -/
def usingDirective? (scope : Scope) (run : List Tree) : Option Node :=
  let keywords := match scope with
    | .file => usingWords
    | .body => []
  if (usingDirectiveBut keywords).fits run then some (.usingDirective (spanOf run)) else none

/-- The node of a kind; what is in a class, struct or record is read, too. -/
def ofKind (read : List Tree → List Node) (run : List Tree) (kind : Kind) : Node :=
  match kind with
  | .classType | .structType | .recordType => .other (spanOf run) kind (read (bodyOf run))
  | _ => .other (spanOf run) kind []

/-- The namespaces and types, which may stand anywhere. -/
def sharedDeclaration? (read : List Tree → List Node) (run : List Tree) : Option Node :=
  if let some (name, inner) := Reader.whole? Reader.namespaceBlock run then
    some (.namespaceBlock (spanOf run) name (read inner))
  else if let some (header, inner) := Reader.whole? Reader.interface run then
    some (.interface (spanOf run) header (read inner))
  else (kindOf? typeKinds run).map (ofKind read run)

/-- The members of a body. -/
def member? (run : List Tree) : Option Node :=
  if let some m := Reader.whole? Reader.method run then some (.method (spanOf run) m)
  else if let some p := Reader.whole? Reader.property run then some (.property (spanOf run) p)
  else (kindOf? memberKinds run).map fun kind => .other (spanOf run) kind []

/-- The trees between the branches of a conditional, and whether no branch follows `#else`. -/
def splitBranches : List Tree → List (List Tree) × Bool
  | [] => ([[]], true)
  | t :: ts =>
    let (rest, ordered) := splitBranches ts
    match t with
    | .token u =>
      if u.isDirective "elif" then ([] :: rest, ordered)
      else if u.isDirective "else" then ([] :: rest, ordered && rest.length == 1)
      else ((t :: rest.headD []) :: rest.tail, ordered)
    | .group .. => ((t :: rest.headD []) :: rest.tail, ordered)

/-- The declaration that a run is, if it is one. -/
def declaration? (read : Scope → List Tree → List Node) (scope : Scope) (run : List Tree) :
    Option Node :=
  match run with
  | [.group .conditional _ inner _] =>
    let (parts, ordered) := splitBranches inner
    if ordered then some (.other (spanOf run) .conditional (parts.flatMap (read scope))) else none
  | _ =>
    (usingDirective? scope run).orElse fun _ =>
      match scope with
      | .body => (sharedDeclaration? (read .body) run).orElse fun _ => member? run
      | .file =>
        let shared :=
          if (fileItemWith (anyGroup .curly)).fits run then sharedDeclaration? (read .body) run else none
        shared.orElse fun _ =>
          (kindOf? fileKinds run).map fun kind => .other (spanOf run) kind []

/-! ### Faults -/

mutual

/-- Whether a brace is not closed at or inside a tree. -/
def opensBrace : Tree → Bool
  | .token _ => false
  | .group .curly _ _ (.absent _) => true
  | .group _ _ inner _ => anyOpensBrace inner

/-- Whether a brace is not closed somewhere in a list of trees. -/
def anyOpensBrace : List Tree → Bool
  | [] => false
  | t :: ts => opensBrace t || anyOpensBrace ts

end

mutual

/-- The first fault inside a tree that comes from tokens and brackets alone. -/
def faultIn? : Tree → Option Node
  | .token ⟨.broken what, _, text, start, _⟩ => some (.error ⟨start, text⟩ what)
  | .token _ => none
  | .group bracket _ inner closing =>
    (fault? inner).orElse fun _ =>
      match closing with
      | .present _ => none
      | .absent missed => some (.missing missed bracket.closer)

/-- The first fault in a list of trees that comes from tokens and brackets alone. -/
def fault? : List Tree → Option Node
  | [] => none
  | t :: ts => (faultIn? t).orElse fun _ => fault? ts

end

/-- What text is reported as that is no declaration. -/
def errorName : String := "ERROR"

/-- A token that is not there. -/
def semicolon : Tree :=
  .token ⟨.mark, [], ";", 0, 0⟩

/-- The longest beginning of a run, of at most `size` trees, that becomes a declaration once a
semicolon is supplied: the number of its trees. -/
def completable? (isDeclaration : List Tree → Bool) (run : List Tree) : (size : Nat) → Option Nat
  | 0 => none
  | size + 1 =>
    if isDeclaration (run.take (size + 1) ++ [semicolon]) then some (size + 1)
    else completable? isDeclaration run size

/-- What weighs against leaving out some trees: their length, more for every line and most for
every token that is no word. -/
def omissionCost (ts : List Tree) : Nat :=
  let text := (Tree.verbatim ts).toList
  let others := (Tree.tokensAll ts).countP fun t => t.kind != .word
  Text.utf8Length text + 30 * text.count '\n' + 100 * others

/-- The cost from which on a semicolon is rather supplied than text left out. -/
def omissionLimit : Nat := 110

/-- The trees in front of the end or the body of a declaration. -/
def superfluous (ts : List Tree) : List Tree :=
  ts.takeWhile fun t =>
    !(t.isGroup .curly || t.isText ";" || t.isText "=>" || t.isText "where")

/-- The node of a run that is no declaration, though its brackets and tokens are faultless. -/
def ofFaultyRun (isDeclaration : List Tree → Bool) (run : List Tree) : Node :=
  match completable? isDeclaration run run.length with
  | none => .error (spanOf run) errorName
  | some size =>
    let beginning := run.take size
    let extra := superfluous (run.drop size)
    let rest := run.drop (size + extra.length)
    if !extra.isEmpty && isDeclaration (beginning ++ rest) && omissionCost extra < omissionLimit then
      .error (spanOf extra) errorName
    else .missing (Tree.reachOf beginning) ";"

/-- The node of a run. -/
def ofRun (read : Scope → List Tree → List Node) (scope : Scope) (run : List Tree) : Node :=
  if anyOpensBrace run then .error (spanOf run) errorName
  else match fault? run with
  | some n => n
  | none =>
    match declaration? read scope run with
    | some n => n
    | none => ofFaultyRun (fun ts => (declaration? read scope ts).isSome) run

/-- The brace that closes the block at the end of a statement. -/
def closingBrace? (n : Node) (run : List Tree) : Option Token :=
  match n, run.getLast? with
  | .other _ .statement _, some (.group .curly _ _ (.present t)) => some t
  | _, _ => none

/-- The nodes of runs. A closing brace that closes nothing is laid to the charge of a statement
directly in front of it that ends with a block: `block` is the brace that closes the block. -/
def ofRuns (node : List Tree → Node) (block : Option Token) : List (List Tree) → List Node
  | [] => []
  | run :: runs =>
    let n := node run
    let reported := match block, run with
      | some brace, [.token t] =>
        if t.isText brace.text then .error ⟨brace.start, brace.text⟩ errorName else n
      | _, _ => n
    reported :: ofRuns node (closingBrace? n run) runs

/-- The nodes of a list of trees whose groups are nested at most `depth` deep. -/
def ofTreesWithin : (depth : Nat) → Scope → List Tree → List Node
  | 0, _, _ => []
  | depth + 1, scope, ts => ofRuns (ofRun (ofTreesWithin depth) scope) none (Tree.runs scope ts)

/-- The nodes of a file. The interpreter line may only stand first. -/
def ofTrees (ts : List Tree) : List Node :=
  let depth := Tree.depth ts + 1
  match ts with
  | .token t :: rest =>
    if t.kind = .shebang then
      .other (spanOf [.token t]) .shebang [] :: ofTreesWithin depth .file rest
    else ofTreesWithin depth .file ts
  | _ => ofTreesWithin depth .file ts

end Node

end InteropStubs
