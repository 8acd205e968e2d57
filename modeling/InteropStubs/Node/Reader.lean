import InteropStubs.Declaration
import InteropStubs.Phrase.Grammar

/-!
# Reading declarations

A `Reader` takes trees from the front of a list. Like a phrase it may do so in several ways, and it
returns a result for each of them. This module reads the parts of the declarations that the
generator keeps: parameters, methods, properties, bases and interface headers. Everything else in
them is skipped as a phrase.
-/

namespace InteropStubs

/-- Programs that read from a list of trees: their results, each with the trees that are left. -/
def Reader (α : Type) : Type :=
  List Tree → List (α × List Tree)

namespace Reader

open Phrase Rule

instance : Monad Reader where
  pure a ts := [(a, ts)]
  bind r f ts := (r ts).flatMap fun (a, rest) => f a rest

instance : Alternative Reader where
  failure _ := []
  orElse r s ts := r ts ++ s () ts

/-- Pass over a phrase. -/
def skip (p : Phrase) : Reader Unit :=
  fun ts => (p.sizes ts).map fun n => ((), ts.drop n)

/-- Take the trees of a phrase. -/
def take (p : Phrase) : Reader (List Tree) :=
  fun ts => (p.sizes ts).map fun n => ts.splitAt n

/-- Take a phrase as it is written. -/
def text (p : Phrase) : Reader String :=
  Tree.verbatim <$> take p

/-- Take an identifier, where the given words are keywords. -/
def nameBut (keywords : List String) : Reader Token :=
  fun
  | .token t :: rest => if (TokenClass.nameBut keywords).holds t then [(t, rest)] else []
  | _ => []

/-- Take a closed group between the given brackets: the group, what is in it, and its end. -/
def group (b : Bracket) : Reader (Tree × List Tree × Token) :=
  fun
  | t@(.group bracket _ inner (.present closing)) :: rest =>
    if bracket = b then [((t, inner, closing), rest)] else []
  | _ => []

/-- Look at the next tree. -/
def peek : Reader (Option Tree) :=
  fun ts => [(ts.head?, ts)]

/-- Whether the next tree is the given keyword or mark. -/
def next (mark : String) : Reader Bool :=
  return (← peek).any (Tree.isText mark)

/-- Go on with a value that may not be there. -/
def given {α : Type} (a : Option α) : Reader α :=
  fun ts => a.toList.map fun a => (a, ts)

/-- The result of a reader that leaves least, the first one if there are several. -/
def longest {α : Type} (r : Reader α) : Reader α :=
  fun ts =>
    let results := r ts
    (results.find? fun a => results.all fun b => a.2.length ≤ b.2.length).toList

/-- The first result of a reader that takes a list of trees as a whole. -/
def whole? {α : Type} (r : Reader α) (ts : List Tree) : Option α :=
  ((r ts).find? fun result => result.2.isEmpty).map Prod.fst

/-- Apply a reader as often as trees are left, with commas between. The number `bound` is how
often at most. -/
def separated {α : Type} (r : Reader α) : (bound : Nat) → Reader (List α)
  | 0 => failure
  | bound + 1 => do
    let a ← r
    if ← next "," then
      skip (the ",")
      return a :: (← separated r bound)
    else return [a]

/-- Apply a reader as often as trees are left. The number `bound` is how often at most. -/
def untilEnd {α : Type} (r : Reader α) : (bound : Nat) → Reader (List α)
  | 0 => pure []
  | bound + 1 => do
    match ← peek with
    | none => return []
    | some _ =>
      let a ← r
      return a :: (← untilEnd r bound)

/-! ### Parameters -/

/-- A parameter that is neither preceded by attributes nor marked `params`, without its default
value. A single identifier is a name without a type. A type takes the word `scoped` in front of it
if it can. -/
def typedParameter : Reader Parameter :=
  longest <|
    (do
      skip (many (passing <|> the "scoped"))
      let written ← text parameterType
      return ⟨written, (← nameBut []).text⟩)
    <|> (do return ⟨"", (← nameBut Words.parameterStart).text⟩)

/-- A parameter behind `params`. Its name counts only if the next token follows without trivia,
and its type only if the name does; `closing` is the token behind the list. -/
def collectingParameter (closing : Token) : Reader (Option Parameter) := do
  let written ← text (rule .type)
  let name ← nameBut []
  let following := ((← peek).map Tree.head).getD closing
  if following.afterTrivia then return none
  else return some ⟨if name.afterTrivia then "" else written, name.text⟩

/-- One entry of a parameter list. -/
def parameter (closing : Token) : Reader (Option Parameter) := do
  skip (many (rule .attributes))
  if ← next "params" then
    skip (the "params")
    collectingParameter closing
  else
    let p ← typedParameter
    skip default
    return some p

/-- The parameters between two parentheses. -/
def parameters? (inner : List Tree) (closing : Token) : Option (List Parameter) :=
  match inner with
  | [] => some []
  | _ => (whole? (separated (parameter closing) inner.length) inner).map fun ps => ps.filterMap id

/-! ### Members -/

/-- What a method and a property have in common, from the attributes to the name: the type and the
name. -/
def memberHead : Reader (String × String) := do
  skip memberDecorations
  let written ← text memberType
  skip owner
  return (written, (← nameBut Words.behindMemberType).text)

/-- A method. -/
def method : Reader Method := do
  let (returns, name) ← memberHead
  skip methodTypeParameters
  let (list, inner, closing) ← group .round
  let parameters ← given (parameters? inner closing)
  skip (constraints ++ rule .body)
  return ⟨name, returns, parameters, Tree.verbatim [list]⟩

/-- An accessor: only its word is kept. -/
def accessor : Reader String := do
  skip decorations
  let word ← nameBut Words.modifiers
  skip (rule .body)
  return word.text

/-- The accessors between two braces, as far as properties keep them. -/
def accessors? (inner : List Tree) : Option (List String) :=
  (whole? (untilEnd accessor inner.length) inner).map fun words =>
    words.filter accessorWords.contains

/-- A property. -/
def property : Reader Property := do
  let (written, name) ← memberHead
  if ← next "=>" then
    skip arrowBody
    return ⟨name, written, []⟩
  else
    let (_, inner, _) ← group .curly
    let accessors ← given (accessors? inner)
    skip (Phrase.optional initialValue)
    return ⟨name, written, accessors⟩

/-! ### Interfaces and namespaces -/

/-- The bases behind a name, if there are any; arguments that follow them count as one more. -/
def bases : Reader (Option (List String)) := do
  if ← next ":" then
    skip (the ":")
    let types ← separated (text (rule .type)) (← trees).length
    match ← peek with
    | some (.group .round ..) => return some (types ++ [← text (parens (rule .arguments))])
    | _ => return some types
  else return none
where
  /-- Look at the trees that are left. -/
  trees : Reader (List Tree) :=
    fun ts => [(ts, ts)]

/-- What ends a type declaration: a body, with a semicolon only if it touches the closing brace,
or a semicolon alone. The result is what is in the body. -/
def typeEnd : Reader (List Tree) := do
  if ← next ";" then
    skip (the ";")
    return []
  else
    let (_, inner, _) ← group .curly
    skip touchingSemicolon
    return inner

/-- An interface, and what is in its body. -/
def interface : Reader (Interface × List Tree) := do
  skip (decorations ++ the "interface")
  let name ← nameBut []
  skip (Phrase.optional (typeParametersBut []))
  let bases ← bases
  skip constraints
  let inner ← typeEnd
  return (⟨name.text, bases⟩, inner)

/-- A namespace: its name, and what is in its body. -/
def namespaceBlock : Reader (String × List Tree) := do
  skip (the "namespace")
  let name ← text (qualifiedNameBut [])
  let (_, inner, _) ← group .curly
  skip touchingSemicolon
  return (name, inner)

end Reader

end InteropStubs
