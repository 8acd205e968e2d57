import InteropStubs.Proofs.File.Location
import InteropStubs.Proofs.Outline.Declarations
import InteropStubs.Proofs.Outline.Lexing

/-!
# Extraction undoes printing

A `View` is what is read of a node, wherever the node stands. The views of an outline in a layout are
known without reading (`Item.view`): names and types are those of the outline, and using directives and
parameter lists are texts of the layout.

* `shows_items`: the nodes made of a planted outline have the views of the outline, at every depth.
* `parse_print`: an outline that is printed in any layout is a declaration file with these views.
-/

namespace InteropStubs

/-- What is read of a node: its kind, what is kept of it, and the views of its members. -/
inductive View where
  | namespaceBlock (name : String) (members : List View)
  | usingDirective (text : String)
  | interface (header : Interface) (members : List View)
  | method (signature : Method)
  | property (signature : Property)
  /-- A node that no stub is made of, by the name of its kind. -/
  | other (what : String)

mutual

/-- The view of a node. -/
def Node.view : Node → View
  | .namespaceBlock _ name ms => .namespaceBlock name (views ms)
  | .usingDirective span => .usingDirective span.text
  | .interface _ header ms => .interface header (views ms)
  | .method _ m => .method m
  | .property _ p => .property p
  | .other _ kind _ => .other kind.name
  | .error _ what => .other what
  | .missing _ token => .other token

/-- The views of some nodes. -/
def Node.views : List Node → List View
  | [] => []
  | n :: ns => n.view :: views ns

end

namespace Outline

/-! ### The views of an outline -/

/-- The view of a member whose first token has the number `i`. -/
def Member.view (L : Layout) (i : Nat) : Member → View
  | method r x ps => .method (keptMethod L i r x ps)
  | property t x a as => .property (keptProperty t x (a :: as))

/-- The views of members. -/
def memberViews (L : Layout) : (i : Nat) → List Member → List View
  | _, [] => []
  | i, m :: ms => m.view L i :: memberViews L (i + (leavesAll m.forms).length) ms

mutual

/-- The view of an item whose first token has the number `i`. -/
def Item.view (L : Layout) (i : Nat) : Item → View
  | .usingDirective n => .usingDirective (L.spelled i (leavesAll (Item.usingDirective n).forms))
  | .namespaceBlock n items =>
    .namespaceBlock n.text (itemViews L (i + 1 + (leavesAll n.forms).length + 1) items)
  | .interface x ns ms =>
    .interface ⟨x.text, keptBases ns⟩
      (memberViews L (i + 1 + 1 + (leavesAll (baseList ns)).length + 1) ms)

/-- The views of items. -/
def itemViews (L : Layout) (i : Nat) : List Item → List View
  | [] => []
  | x :: xs => x.view L i :: itemViews L (i + (leavesAll x.forms).length) xs

end

open Layout Node

variable {L : Layout} {start : Nat → Nat} {scope : Scope}

/-! ### One level -/

/-- The run of a declaration becomes its node. -/
theorem ofRun_plant {read : Scope → List Tree → List Node} {i : Nat} {fs : List Form} {n : Node}
    (hfs : nestsAll true fs = true) (hn : declaration? read scope (plant L start i fs) = some n) :
    ofRun read scope (plant L start i fs) = n := by
  obtain ⟨hopen, hfault⟩ := fault?_plant (L := L) true i fs hfs
  rw [ofRun, hopen, hfault, hn]
  rfl

/-- Nodes without a fault that have some views. -/
def Shows (ns : List Node) (vs : List View) : Prop :=
  views ns = vs ∧ anyHasError ns = false

theorem Shows.cons {n : Node} {ns : List Node} {v : View} {vs : List View} (hview : n.view = v)
    (hn : hasError n = false) (hns : Shows ns vs) : Shows (n :: ns) (v :: vs) := by
  constructor
  · rw [views, hview, hns.1]
  · rw [anyHasError, hn, hns.2, Bool.or_self]

/-- A run that is no statement, in front of other runs. -/
theorem Shows.ofRuns {node : List Tree → Node} {run : List Tree} {runs : List (List Tree)} {n : Node}
    {v : View} {vs : List View} (hnode : node run = n) (hclosing : closingBrace? n run = none)
    (hview : n.view = v) (hn : hasError n = false) (hruns : Shows (ofRuns node none runs) vs) :
    Shows (ofRuns node none (run :: runs)) (v :: vs) := by
  have hcons : Node.ofRuns node none (run :: runs) =
      node run :: Node.ofRuns node (closingBrace? (node run) run) runs := rfl
  rw [hcons, hnode, hclosing]
  exact .cons hview hn hruns

/-- **The members of an interface** are read back. -/
theorem shows_members (L : Layout) (start : Nat → Nat) (read : Scope → List Tree → List Node) (i : Nat)
    (ms : List Member) :
    Shows (ofRuns (ofRun read .body) none (Tree.runs .body (plant L start i (ms.flatMap Member.forms))))
      (memberViews L i ms) := by
  rw [runs_members]
  induction ms generalizing i with
  | nil => exact ⟨rfl, rfl⟩
  | cons m ms ih =>
      refine .ofRuns (ofRun_plant (nests_member m) (declaration?_member m)) ?_ ?_ ?_ (ih _)
      all_goals cases m <;> rfl

/-! ### All levels -/

theorem depth_block (L : Layout) (start : Nat → Nat) (i : Nat) (fs : List Form) :
    Tree.depth [block L start i fs] = Tree.depth (plant L start (i + 1) fs) + 1 := by
  simp [Tree.depth, block, plantOne, Tree.depthIn]

/-- The node of an item shows the item, if what is in its body is read back. -/
theorem view_itemNode {depth : Nat} (i : Nat) (x : Item)
    (ih : ∀ (j : Nat) (xs : List Item), Tree.depth (plant L start j (itemForms xs)) < depth →
      Shows (ofTreesWithin depth .body (plant L start j (itemForms xs))) (itemViews L j xs))
    (hdepth : Tree.depth (plant L start i x.forms) < depth + 1) :
    (itemNode L start (ofTreesWithin depth .body) i x).view = x.view L i ∧
      hasError (itemNode L start (ofTreesWithin depth .body) i x) = false := by
  cases x with
  | usingDirective n =>
      have htext : (spanOf (plant L start i (Item.usingDirective n).forms)).text =
          L.spelled i (leavesAll (Item.usingDirective n).forms) :=
        verbatim_plant (Item.usingDirective n).forms
      exact ⟨congrArg View.usingDirective htext, rfl⟩
  | namespaceBlock n items =>
      rw [plant_namespaceBlock, Tree.depth, Tree.depth_append, depth_block] at hdepth
      have hinner := ih (i + 1 + (leavesAll n.forms).length + 1) items (by omega)
      exact ⟨congrArg (View.namespaceBlock n.text) hinner.1, hinner.2⟩
  | interface x ns ms =>
      rw [plant_interface, Tree.depth, Tree.depth, Tree.depth_append, depth_block] at hdepth
      obtain ⟨depth, rfl⟩ : ∃ d, depth = d + 1 := ⟨depth - 1, by omega⟩
      have hinner := shows_members L start (ofTreesWithin depth)
        (i + 1 + 1 + (leavesAll (baseList ns)).length + 1) ms
      exact ⟨congrArg (View.interface ⟨x.text, keptBases ns⟩) hinner.1, hinner.2⟩

/-- **Items** are read back, at every depth. -/
theorem shows_items (depth : Nat) (scope : Scope) (i : Nat) (xs : List Item)
    (hdepth : Tree.depth (plant L start i (itemForms xs)) < depth) :
    Shows (ofTreesWithin depth scope (plant L start i (itemForms xs))) (itemViews L i xs) := by
  induction depth generalizing scope i xs with
  | zero => exact absurd hdepth (Nat.not_lt_zero _)
  | succ depth ih =>
      rw [ofTreesWithin, runs_items]
      induction xs generalizing i with
      | nil => exact ⟨rfl, rfl⟩
      | cons x xs ihxs =>
          rw [itemForms, plant_append, Tree.depth_append] at hdepth
          obtain ⟨hview, hfaultless⟩ := view_itemNode i x (ih .body) (by omega)
          refine .ofRuns (ofRun_plant (nests_item x) (declaration?_item x)) ?_ hview hfaultless
            (ihxs (i + (leavesAll x.forms).length) (by omega))
          cases x <;> rfl

/-! ### Files -/

/-- The trees of a printed outline are the outline as it is planted. -/
theorem ofTokens_print (L : Layout) (xs : List Item) :
    ∃ start, Tree.ofTokens (Token.ofChars (L.print xs).toList) = plant L start 0 (itemForms xs) := by
  refine ⟨L.startIn (leavesAll (itemForms xs)), ?_⟩
  rw [ofChars_print, ← tokensAll_plant]
  exact Tree.ofTokens_tokensAll (wellNested_plant true 0 (itemForms xs) (nests_items xs))

/-- An outline begins with no interpreter line. -/
theorem ofTrees_plant (L : Layout) (start : Nat → Nat) (xs : List Item) :
    ofTrees (plant L start 0 (itemForms xs)) =
      ofTreesWithin (Tree.depth (plant L start 0 (itemForms xs)) + 1) .file
        (plant L start 0 (itemForms xs)) := by
  cases xs with
  | nil => rfl
  | cons x xs =>
      obtain ⟨w, fs, hx⟩ := x.forms_eq_word
      rw [itemForms, hx]
      rfl

/-- **Extraction undoes printing.** -/
theorem parse_print (L : Layout) (xs : List Item) :
    ∃ f, File.parse (L.print xs) = .ok f ∧ views f.nodes = itemViews L 0 xs := by
  obtain ⟨start, htrees⟩ := ofTokens_print L xs
  have hnodes : Shows (File.read (L.print xs)).nodes (itemViews L 0 xs) := by
    have hread : (File.read (L.print xs)).nodes = ofTrees (plant L start 0 (itemForms xs)) := by
      rw [← htrees]
      rfl
    rw [hread, ofTrees_plant]
    exact shows_items _ .file 0 xs (Nat.lt_succ_self _)
  exact ⟨File.read (L.print xs), File.parse_eq_ok_iff.mpr ⟨rfl, hnodes.2⟩, hnodes.1⟩

/-- One blank in front of every token. -/
def spaced : Layout where
  gap _ := [' ']
  gap_blank _ := List.forall_mem_singleton.mpr rfl
  apart _ _ := by decide
  trail := []
  trail_blank := nofun

example : spaced.print [.interface ⟨"A", by decide, by decide⟩ [] [.property
    ⟨.builtIn "int" (by decide), .nullable⟩ ⟨"b", by decide, by decide⟩ .get [.set]]] =
    " interface A " ++ braced ("int? b " ++ braced "get ; set ;") := by
  decide

end Outline

end InteropStubs
