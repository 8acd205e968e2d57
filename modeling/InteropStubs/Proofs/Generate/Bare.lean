import InteropStubs.Proofs.File.Seam
import InteropStubs.Proofs.Generate.Forwarding
import InteropStubs.Proofs.Token.Seam
import Mathlib.Data.List.Nodup

/-!
# Places make no difference

What is generated for a source is found out from the nodes without their places (`generate_of_bare`), and
so it stays the same if its tokens get twins (`File.relabelled_of_twins`).
-/

namespace InteropStubs

variable {config : Config} {source source' text : String} {p : Nat}

/-- A source of which everything goes into stubs prints the rendering of its nodes. -/
theorem source_prints_render (h : Node.violations config (File.read source).nodes = []) :
    Emit.Prints (Emit.source config source) (.ok ()) (Node.render config (File.read source).nodes) := by
  have hbroken := Node.anyHasError_of_isStubbed _ (Node.isStubbed_of_violations _ h)
  have hparse : File.parse source = .ok (File.read source) := File.parse_eq_ok_iff.mpr ⟨rfl, hbroken⟩
  rw [Emit.source, hparse]
  exact Node.emitAll_prints _ h

/-- What is generated, and when. -/
theorem generate_eq_ok_iff : generate config source = .ok text ↔
    Node.violations config (File.read source).nodes = [] ∧ text = Line.print config.indent 0
      ((fileHeader.map fun text => ⟨0, text⟩) ++ Node.render config (File.read source).nodes) := by
  constructor
  · intro h
    obtain ⟨-, hv, htext⟩ := eq_print_of_generate h
    exact ⟨hv, htext⟩
  · rintro ⟨hv, rfl⟩
    rw [generate_eq_of_prints (source_prints_render hv)]
    exact congrArg Except.ok (Emitter.output_lay_start _ _)

/-- The nodes of a source for which something is generated go into stubs. -/
theorem isStubbed_of_generate (h : generate config source = .ok text) :
    ∀ n ∈ Node.all (File.read source).nodes, n.isStubbed = true :=
  Node.isStubbed_of_violations _ (generate_eq_ok_iff.mp h).1

/-- **Places make no difference** to what is generated. -/
theorem generate_of_bare (h : generate config source = .ok text)
    (hbare : Node.bare (File.read source').nodes = Node.bare (File.read source).nodes) :
    generate config source' = .ok text := by
  obtain ⟨hv, rfl⟩ := generate_eq_ok_iff.mp h
  refine generate_eq_ok_iff.mpr ⟨?_, ?_⟩
  · rwa [← Node.violations_bare_iff, hbare, Node.violations_bare_iff]
  · rw [← Node.render_bare config (File.read source').nodes, hbare, Node.render_bare]

namespace File

/-- Some trees are those of a source once relabelled, and the gaps that change make no difference to what is
kept as it is written. -/
def Relabelled (source : String) (ts : List Tree) : Prop :=
  ∃ (p : Nat) (φ : Relabelling), ts = (trees source).map (Tree.relabel φ) ∧
    (∀ t : Token, t.start ≠ p → (φ t).gap = t.gap) ∧
      Node.Apart p (Tree.depth (trees source) + 1) .file (trees source)

namespace Relabelled

variable {ts : List Tree}

theorem depth_eq (h : Relabelled source ts) : Tree.depth ts = Tree.depth (trees source) := by
  obtain ⟨-, φ, rfl, -⟩ := h
  exact Tree.depth_relabel φ _

theorem areClosed (h : Relabelled source ts)
    (hstubbed : ∀ n ∈ Node.all (read source).nodes, n.isStubbed = true) : Tree.areClosed ts = true := by
  obtain ⟨-, φ, rfl, -⟩ := h
  rw [Tree.areClosed_relabel]
  exact Tree.areClosed_iff.mpr fun t ht => (complete_of_isStubbed hstubbed t ht).closed

theorem noShebang (h : Relabelled source ts)
    (hstubbed : ∀ n ∈ Node.all (read source).nodes, n.isStubbed = true) : Node.NoShebang ts := by
  obtain ⟨-, φ, rfl, -⟩ := h
  exact (Node.noShebang_of_isStubbed hstubbed).relabel φ

/-- **The nodes of relabelled trees** are those of the source, but for their places, at every depth that is
enough. -/
theorem bare_ofTreesWithin (h : Relabelled source ts)
    (hstubbed : ∀ n ∈ Node.all (read source).nodes, n.isStubbed = true) {depth : Nat} (hdepth : Tree.depth ts < depth) :
    Node.bare (Node.ofTreesWithin depth .file ts) = Node.bare (read source).nodes := by
  rw [h.depth_eq] at hdepth
  obtain ⟨p, φ, rfl, hgap, hapart⟩ := h
  have hnodes := nodes_eq hstubbed
  rw [hnodes] at hstubbed ⊢
  exact Node.bare_ofTreesWithin hgap _ _ .file _ hdepth (Nat.lt_succ_self _) hapart hstubbed

/-- So are the nodes of a source with such trees. -/
theorem bare (h : Relabelled source (trees source'))
    (hstubbed : ∀ n ∈ Node.all (read source).nodes, n.isStubbed = true) :
    Node.bare (read source').nodes = Node.bare (read source).nodes := by
  have hnodes : (read source').nodes = Node.ofTreesWithin (Tree.depth (trees source') + 1) .file (trees source') :=
    Node.ofTrees_of_noShebang (h.noShebang hstubbed)
  rw [hnodes, h.bare_ofTreesWithin hstubbed (Nat.lt_succ_self _)]

end Relabelled

/-- No phrase asks of a token at a border whether it touches what is in front of it. -/
theorem isText_of_border (hborder : Token.Border p (Token.ofChars source.toList)) :
    ∀ t ∈ Token.ofChars source.toList, t.start = p → ∀ m ∈ Token.touchy, t.isText m = false := by
  intro t ht hstart m hm
  obtain ⟨front, u, back, hsplit, hu, -, htouchy⟩ := hborder
  have hnodup : ((Token.ofChars source.toList).map Token.start).Nodup :=
    (Token.cutFrom_ofChars _).pairwise_start.imp Nat.ne_of_lt
  obtain rfl : t = u := List.inj_on_of_nodup_map hnodup ht (hsplit ▸ by simp) (hstart.trans hu.symm)
  rw [Bool.eq_false_iff]
  intro htext
  obtain ⟨hkind | hkind, htext⟩ : (t.kind = .word ∨ t.kind = .mark) ∧ t.text = m := by
    simpa [Token.isText] using htext
  · have hmarks : ∀ m ∈ Token.touchy, m.toList.head?.any Scan.beginsWord = false := by decide +kernel
    exact Token.text_ne_of_not_beginsWord ht hkind (hmarks m hm) htext
  · exact htouchy m hm hkind htext

/-- **Twins of the tokens of a source** nest to relabelled trees, if the place where their gaps may differ is the
end or a seam. -/
theorem relabelled_of_twins {ts : List Token} (hstubbed : ∀ n ∈ Node.all (read source).nodes, n.isStubbed = true)
    (hp : p = source.toList.length ∨ Node.IsSeam p (Tree.depth (trees source) + 1) .file (trees source))
    (htwins : List.Forall₂ (Token.Twin p) (Token.ofChars source.toList) ts) :
    Relabelled source (Tree.ofTokens ts) := by
  have hcut := Token.cutFrom_ofChars source.toList
  have hnodup : ((Token.ofChars source.toList).map Token.start).Nodup := hcut.pairwise_start.imp Nat.ne_of_lt
  have htokens : Tree.tokensAll (trees source) = Token.ofChars source.toList := Tree.tokensAll_ofTokens _
  obtain ⟨htouchy, hapart⟩ : (∀ t ∈ Token.ofChars source.toList, t.start = p → ∀ m ∈ Token.touchy, t.isText m = false) ∧
      Node.Apart p (Tree.depth (trees source) + 1) .file (trees source) := by
    rcases hp with rfl | ⟨hseam, hborder⟩
    · have hstart : ∀ t ∈ Token.ofChars source.toList, t.start ≠ source.toList.length := fun t ht =>
        Nat.ne_of_lt (by simpa using hcut.start_lt_length t ht)
      exact ⟨fun t ht h => absurd h (hstart t ht),
        Node.apart_of_forall_ne _ _ _ fun t ht => hstart t (htokens ▸ ht)⟩
    · rw [htokens] at hborder
      refine ⟨isText_of_border hborder, hseam.apart ?_⟩
      rwa [Node.Distinct, htokens]
  obtain ⟨φ, hmap, hgap⟩ := Relabelling.exists_of_twins htwins hnodup htouchy
  have hclosed : Tree.areClosed (trees source) = true :=
    Tree.areClosed_iff.mpr fun t ht => (complete_of_isStubbed hstubbed t ht).closed
  exact ⟨p, φ, by rw [← hmap, Tree.ofTokens_map φ hclosed, trees], hgap, hapart⟩

end File

end InteropStubs
