import InteropStubs.Proofs.Phrase.Start
import InteropStubs.Token.Scan
import InteropStubs.Tree.Basic

/-!
# Outlines

An outline is a declaration file without its layout: using directives, namespaces and interfaces, with
just what is kept of them. `Item.forms` says how an outline is written, as a list of *forms*: words and
marks, some of which must touch what is in front of them, and groups of forms between brackets.
-/

namespace InteropStubs.Outline

/-! ### What there is to write -/

/-- A word that is a name wherever it stands. -/
structure Identifier where
  text : String
  isWord : Scan.word? text.toList = some text.length
  isFree : text ∉ Words.reserved

/-- Identifiers with points between. -/
structure Name where
  first : Identifier
  more : List Identifier

/-- The built-in types that values have. -/
def builtIn : List String :=
  Words.predefined.erase "void"

/-- A type without a suffix. -/
inductive PlainType where
  | named (name : Name)
  | builtIn (word : String) (h : word ∈ builtIn)

inductive Suffix where
  | none
  | nullable
  | array

/-- The type of a value. -/
structure ValueType where
  plain : PlainType
  suffix : Suffix

/-- What a method returns. -/
inductive Returns where
  | nothing
  | value (type : ValueType)

structure Parameter where
  type : ValueType
  name : Identifier

inductive Accessor where
  | get
  | set
  | init

inductive Member where
  | method (returns : Returns) (name : Identifier) (parameters : List Parameter)
  | property (type : ValueType) (name : Identifier) (first : Accessor) (more : List Accessor)

inductive Item where
  | usingDirective (name : Name)
  | namespaceBlock (name : Name) (items : List Item)
  /-- An interface; without bases it is written without a base list. -/
  | interface (name : Identifier) (bases : List Name) (members : List Member)

/-! ### Texts -/

/-- The text of a name. -/
def Name.text (n : Name) : String :=
  n.first.text ++ String.join (n.more.map fun x => "." ++ x.text)

def PlainType.text : PlainType → String
  | named n => n.text
  | builtIn word _ => word

def Suffix.text : Suffix → String
  | none => ""
  | nullable => "?"
  | array => "[]"

/-- The text of a type. -/
def ValueType.text (t : ValueType) : String :=
  t.plain.text ++ t.suffix.text

def Returns.text : Returns → String
  | nothing => "void"
  | value t => t.text

def Accessor.word : Accessor → String
  | get => "get"
  | set => "set"
  | init => "init"

end Outline

/-- The token that opens a bracket, of those that are tokens of their own everywhere. -/
def Bracket.opener : Bracket → String
  | round => "("
  | square => "["
  | curly => openBrace
  | conditional => "#if"
  | quote => "\""

namespace Outline

/-! ### Forms -/

/-- A token that is to be written; a tight one touches the token in front of it. -/
structure Leaf where
  tight : Bool
  kind : Token.Kind
  text : String

/-- A token, or forms between brackets; in a tight group the brackets are tight. -/
inductive Form where
  | leaf (l : Leaf)
  | group (tight : Bool) (bracket : Bracket) (inner : List Form)

mutual

/-- The tokens of a form. -/
def Form.leaves : Form → List Leaf
  | .leaf l => [l]
  | .group tight b inner =>
    ⟨tight, .mark, b.opener⟩ :: (leavesAll inner ++ [⟨tight, .mark, b.closer⟩])

/-- The tokens of some forms. -/
def leavesAll : List Form → List Leaf
  | [] => []
  | f :: fs => f.leaves ++ leavesAll fs

end

namespace Form

/-- A word. -/
def word (text : String) : Form :=
  .leaf ⟨false, .word, text⟩

/-- A mark. -/
def mark (text : String) : Form :=
  .leaf ⟨false, .mark, text⟩

/-- A word that touches what is in front of it. -/
def nextWord (text : String) : Form :=
  .leaf ⟨true, .word, text⟩

/-- A mark that touches what is in front of it. -/
def nextMark (text : String) : Form :=
  .leaf ⟨true, .mark, text⟩

end Form

/-- What is written behind the first of several things with commas between. -/
def listRest (fs : List (List Form)) : List Form :=
  fs.flatMap fun f => .mark "," :: f

/-- Several things with commas between. -/
def list : List (List Form) → List Form
  | [] => []
  | f :: fs => f ++ listRest fs

/-! ### How outlines are written -/

/-- What is written behind the first part of a name. -/
def nameRest (xs : List Identifier) : List Form :=
  xs.flatMap fun x => [.nextMark ".", .nextWord x.text]

def Name.forms (n : Name) : List Form :=
  .word n.first.text :: nameRest n.more

def PlainType.forms : PlainType → List Form
  | named n => n.forms
  | builtIn w _ => [.word w]

def Suffix.forms : Suffix → List Form
  | none => []
  | nullable => [.nextMark "?"]
  | array => [.group true .square []]

def ValueType.forms (t : ValueType) : List Form :=
  t.plain.forms ++ t.suffix.forms

def Returns.forms : Returns → List Form
  | nothing => [.word "void"]
  | value t => t.forms

def Parameter.forms (p : Parameter) : List Form :=
  p.type.forms ++ [.word p.name.text]

/-- The parameter list of a method. -/
def parameterList (ps : List Parameter) : Form :=
  .group false .round (list (ps.map Parameter.forms))

def Accessor.forms (a : Accessor) : List Form :=
  [.word a.word, .mark ";"]

def Member.forms : Member → List Form
  | method returns name ps => returns.forms ++ [.word name.text, parameterList ps, .mark ";"]
  | property type name first more =>
    type.forms ++ [.word name.text, .group false .curly ((first :: more).flatMap Accessor.forms)]

/-- The base list of an interface. -/
def baseList : List Name → List Form
  | [] => []
  | bases => .mark ":" :: list (bases.map Name.forms)

mutual

def Item.forms : Item → List Form
  | .usingDirective n => .word "using" :: (n.forms ++ [.mark ";"])
  | .namespaceBlock n items => .word "namespace" :: (n.forms ++ [.group false .curly (itemForms items)])
  | .interface name bases members =>
    .word "interface" :: .word name.text ::
      (baseList bases ++ [.group false .curly (members.flatMap Member.forms)])

/-- How a list of items is written. -/
def itemForms : List Item → List Form
  | [] => []
  | x :: xs => x.forms ++ itemForms xs

end

@[simp] theorem leavesAll_nil : leavesAll [] = [] := rfl

@[simp] theorem leavesAll_cons (f : Form) (fs : List Form) :
    leavesAll (f :: fs) = f.leaves ++ leavesAll fs := rfl

@[simp] theorem leavesAll_append (fs gs : List Form) :
    leavesAll (fs ++ gs) = leavesAll fs ++ leavesAll gs := by
  induction fs with
  | nil => rfl
  | cons f fs ih => simp [ih]

/-- No reserved word and no mark is an identifier. -/
theorem Identifier.mayBeName (x : Identifier) : Words.mayBeName x.text = true := by
  have hmarks : ∀ m ∈ Words.marks, Scan.word? m.toList = none := by decide
  have hfree : x.text ∉ Words.reserved ++ Words.marks := by
    rw [List.mem_append]
    rintro (h | h)
    · exact x.isFree h
    · exact absurd (x.isWord.symm.trans (hmarks _ h)) nofun
  simpa [Words.mayBeName] using hfree

end InteropStubs.Outline
