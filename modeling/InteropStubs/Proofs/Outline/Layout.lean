import InteropStubs.Proofs.Outline.Syntax
import InteropStubs.Proofs.Tree.Tokens
import InteropStubs.Text.Characters

/-!
# Layouts

A `Layout` says what blanks stand in front of each token and behind the last one. Forms in a layout are
a text (`spelled`, `print`), and they are trees as well: `Layout.plant` lays the forms out as the trees
that the text should be read into, where the first token has a given number.

* `Layout.tokensAll_plant`: the tokens of planted forms are the leaves of the forms.
* `Layout.verbatim_plant`: planted forms are written as they are spelled.
-/

namespace InteropStubs.Outline

/-- What blanks stand in front of each token and behind the last one. Only in front of the first token
there may be none; in front of a token that must touch the one before it, the gap does not count. -/
structure Layout where
  gap : Nat → List Char
  gap_blank : ∀ i, ∀ c ∈ gap i, Text.isBlank c = true
  apart : ∀ i, i ≠ 0 → gap i ≠ []
  trail : List Char
  trail_blank : ∀ c ∈ trail, Text.isBlank c = true

namespace Layout

/-- The blanks in front of a token. -/
def gapAt (L : Layout) (i : Nat) (l : Leaf) : List Char :=
  if l.tight then [] else L.gap i

/-- Some tokens with the gaps in front of them; the first has the number `i`. -/
def spelledFrom (L : Layout) : (i : Nat) → List Leaf → List Char
  | _, [] => []
  | i, l :: ls => L.gapAt i l ++ (l.text.toList ++ spelledFrom L (i + 1) ls)

/-- Some tokens as they are written, without the gap in front of the first. -/
def spelled (L : Layout) (i : Nat) : List Leaf → String
  | [] => ""
  | l :: ls => l.text ++ String.ofList (L.spelledFrom (i + 1) ls)

/-- An outline as it is written in a layout. -/
def print (L : Layout) (items : List Item) : String :=
  String.ofList (L.spelledFrom 0 (leavesAll (itemForms items)) ++ L.trail)

/-! ### Planting -/

/-- Blanks as pieces of a gap. -/
def pieces (gap : List Char) : List Piece :=
  if gap = [] then [] else [.blank (String.ofList gap)]

/-- The token that a leaf becomes; `start` says where tokens start. -/
def token (L : Layout) (start : Nat → Nat) (i : Nat) (l : Leaf) : Token :=
  ⟨l.kind, pieces (L.gapAt i l), l.text, start i, 0⟩

/-- The tokens that leaves become. -/
def tokens (L : Layout) (start : Nat → Nat) : (i : Nat) → List Leaf → List Token
  | _, [] => []
  | i, l :: ls => L.token start i l :: tokens L start (i + 1) ls

mutual

/-- The tree that a form becomes. -/
def plantOne (L : Layout) (start : Nat → Nat) (i : Nat) : Form → Tree
  | .leaf l => .token (L.token start i l)
  | .group tight b inner =>
    .group b (L.token start i ⟨tight, .mark, b.opener⟩) (plant L start (i + 1) inner)
      (.present (L.token start (i + 1 + (leavesAll inner).length) ⟨tight, .mark, b.closer⟩))

/-- The trees that forms become; the first token of them has the number `i`. -/
def plant (L : Layout) (start : Nat → Nat) (i : Nat) : List Form → List Tree
  | [] => []
  | f :: fs => plantOne L start i f :: plant L start (i + f.leaves.length) fs

end

variable {L : Layout} {start : Nat → Nat} {i : Nat}

@[simp] theorem plant_nil : plant L start i [] = [] := rfl

@[simp] theorem plant_cons (f : Form) (fs : List Form) :
    plant L start i (f :: fs) = plantOne L start i f :: plant L start (i + f.leaves.length) fs := rfl

@[simp] theorem plant_append (fs gs : List Form) :
    plant L start i (fs ++ gs) =
      plant L start i fs ++ plant L start (i + (leavesAll fs).length) gs := by
  induction fs generalizing i with
  | nil => rfl
  | cons f fs ih => simp [ih, Nat.add_assoc]

@[simp] theorem length_plant (fs : List Form) : (plant L start i fs).length = fs.length := by
  induction fs generalizing i with
  | nil => rfl
  | cons f fs ih => simp [ih]

/-- Tokens behind tokens are numbered on. -/
theorem tokens_append (ls ms : List Leaf) :
    tokens L start i (ls ++ ms) = tokens L start i ls ++ tokens L start (i + ls.length) ms := by
  induction ls generalizing i with
  | nil => rfl
  | cons l ls ih =>
      simp only [List.cons_append, tokens, ih, List.length_cons]
      rw [Nat.add_right_comm, Nat.add_assoc]

mutual

/-- The tokens of a planted form are those of its leaves. -/
theorem tokens_plantOne (i : Nat) : ∀ f : Form,
    (plantOne L start i f).tokens = tokens L start i f.leaves
  | .leaf l => rfl
  | .group tight b inner => by
      rw [plantOne, Tree.tokens, tokensAll_plant (i + 1) inner, Form.leaves, tokens, tokens_append]
      rfl

/-- **The tokens of planted forms** are their leaves. -/
theorem tokensAll_plant (i : Nat) : ∀ fs : List Form,
    Tree.tokensAll (plant L start i fs) = tokens L start i (leavesAll fs)
  | [] => rfl
  | f :: fs => by
      rw [plant_cons, Tree.tokensAll_cons, tokens_plantOne i f, tokensAll_plant _ fs, leavesAll_cons,
        tokens_append]

end

/-! ### Texts -/

@[simp] theorem text_token (l : Leaf) : (L.token start i l).text = l.text := rfl

@[simp] theorem toList_gapText_token (l : Leaf) :
    (L.token start i l).gapText.toList = L.gapAt i l := by
  simp only [Token.gapText, token, pieces]
  split <;> simp_all [Piece.text]

/-- The text of tokens is what is spelled. -/
theorem toList_join_tokens (L : Layout) (start : Nat → Nat) (i : Nat) (ls : List Leaf) :
    (String.join ((tokens L start i ls).map fun t => t.gapText ++ t.text)).toList =
      L.spelledFrom i ls := by
  induction ls generalizing i with
  | nil => rfl
  | cons l ls ih => simp [tokens, spelledFrom, ← ih]

/-- **Planted forms are written as they are spelled.** -/
theorem verbatim_plant (fs : List Form) :
    Tree.verbatim (plant L start i fs) = L.spelled i (leavesAll fs) := by
  rw [Tree.verbatim, tokensAll_plant]
  cases leavesAll fs with
  | nil => rfl
  | cons l ls =>
      rw [tokens, Token.verbatim, spelled, ← toList_join_tokens L start,
        String.ofList_toList]
      rfl

/-- Leaves that touch one another are written one behind the other. -/
theorem spelledFrom_of_tight {ls : List Leaf} (h : ∀ l ∈ ls, l.tight = true) :
    L.spelledFrom i ls = ls.flatMap fun l => l.text.toList := by
  induction ls generalizing i with
  | nil => rfl
  | cons l ls ih =>
      simp [spelledFrom, gapAt, h l List.mem_cons_self,
        ih fun l hl => h l (List.mem_cons_of_mem _ hl)]

/-- What is spelled behind tokens is numbered on. -/
theorem spelledFrom_append (ls ms : List Leaf) :
    L.spelledFrom i (ls ++ ms) = L.spelledFrom i ls ++ L.spelledFrom (i + ls.length) ms := by
  induction ls generalizing i with
  | nil => rfl
  | cons l ls ih => simp [spelledFrom, ih, Nat.add_assoc, Nat.add_comm 1]

/-- Tight forms are written behind others without a gap. -/
theorem verbatim_plant_append {fs gs : List Form} (hfs : leavesAll fs ≠ [])
    (hgs : ∀ l ∈ leavesAll gs, l.tight = true) :
    Tree.verbatim (plant L start i (fs ++ gs)) =
      Tree.verbatim (plant L start i fs) ++ String.join ((leavesAll gs).map Leaf.text) := by
  rw [verbatim_plant, verbatim_plant, leavesAll_append]
  cases h : leavesAll fs with
  | nil => exact absurd h hfs
  | cons l ls =>
      rw [List.cons_append, spelled, spelled, spelledFrom_append, spelledFrom_of_tight hgs,
        ← String.toList_inj]
      simp [List.flatMap_map]

/-- No comment stands in front of a token. -/
@[simp] theorem afterTrivia_token (l : Leaf) : (L.token start i l).afterTrivia = false := by
  simp only [Token.afterTrivia, token, pieces]
  split <;> simp [Piece.isTrivia]

end Layout

end InteropStubs.Outline
