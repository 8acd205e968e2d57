import InteropStubs.File
import InteropStubs.Proofs.Node.Place
import InteropStubs.Proofs.Text.Position
import InteropStubs.Proofs.Token.Source

/-!
# Locations of nodes

In a file that is accepted, the location of a node leads back to the node: to its line, to its place
in the line and so to its text (`File.Locates`), and the locations of the nodes, a container before
its members, only go forward (`File.locates_of_parse`).
-/

namespace InteropStubs.File

/-- An accepted text was read, and no node of it is broken. -/
theorem parse_eq_ok_iff {source : String} {f : File} :
    parse source = .ok f ↔ f = read source ∧ Node.anyHasError f.nodes = false := by
  have hbroken := Node.anyHasError_eq_false_iff (read source).nodes
  rw [← List.head?_eq_none_iff, ← Node.firstError?_eq_head?] at hbroken
  simp only [parse]
  split
  · next n hn =>
    refine ⟨nofun, ?_⟩
    rintro ⟨rfl, h⟩
    rw [hbroken.mp h] at hn
    exact absurd hn nofun
  · next hn =>
    rw [Except.ok.injEq]
    exact ⟨fun h => ⟨h.symm, h ▸ hbroken.mpr hn⟩, fun h => h.1.symm⟩

/-- The location of a node of a file leads back to the node. -/
structure Locates (f : File) (n : Node) : Prop where
  /-- The node was read from tokens that follow one another, and it starts with the first of them. -/
  tokens : ∃ t mid, t :: mid <:+: Token.ofChars f.text ∧
    n.span = ⟨t.start, Token.verbatim (t :: mid)⟩
  /-- Its text stands there. -/
  text : ∃ before rest, f.text = before ++ n.span.text.toList ++ rest ∧
    before.length = n.span.start
  /-- The line counts line feeds. The column counts the characters of the line in front of the node, or
  their bytes if the first token of the file stands on the line, but not at its beginning. -/
  location : ∃ lines stretch, f.text.take n.span.start = lines ++ stretch ∧
    (lines = [] ∨ ∃ more, lines = more ++ ['\n']) ∧ '\n' ∉ stretch ∧
    (f.locationOf n).line = 1 + (f.text.take n.span.start).count '\n' ∧
    let first := f.locate (Text.firstTokenOffset f.text)
    (f.locationOf n).column =
      if first.line = (f.locationOf n).line ∧ first.column ≠ 0 then Text.utf8Length stretch
      else stretch.length
  /-- The column is the one that is found by a search through whatever encloses the node, up to the
  file as a whole, which starts with its first token. -/
  search : ∀ around : List Nat,
    (∀ start ∈ around, Text.firstTokenOffset f.text ≤ start ∧ start ≤ n.span.start) →
      (Text.searchColumn f.text n.span.start (around ++ [Text.firstTokenOffset f.text]) : Int) =
        (f.locationOf n).column
  /-- Nothing else has the same location. -/
  unique : ∀ offset ≤ f.text.length, f.locate offset = f.locationOf n → offset = n.span.start

theorem locates_of_token {f : File} {n : Node} {t : Token} {mid : List Token}
    (hmid : t :: mid <:+: Token.ofChars f.text)
    (hspan : n.span = ⟨t.start, Token.verbatim (t :: mid)⟩) : f.Locates n := by
  obtain ⟨before, rest, htext, hbefore⟩ := (Token.cutFrom_ofChars f.text).exists_verbatim hmid
  have hstart : n.span.start = t.start := by rw [hspan]
  have hfirst : Text.firstTokenOffset f.text ≤ n.span.start :=
    hstart ▸ Token.firstTokenOffset_le_start (hmid.subset List.mem_cons_self)
  have hlength : n.span.start ≤ f.text.length := by
    rw [hstart, ← hbefore, htext, List.append_assoc, List.length_append]
    exact Nat.le_add_right _ _
  refine ⟨⟨t, mid, hmid, hspan⟩, ⟨before, rest, by rw [hspan]; exact htext, hstart ▸ hbefore⟩, ?_,
    fun around => Text.searchColumn_eq hlength hfirst, fun offset hoffset =>
      Text.eq_of_locate_eq hoffset hlength⟩
  obtain ⟨lines, stretch, htake, hlines, hstretch⟩ := Text.exists_stretch f.text n.span.start
  refine ⟨lines, stretch, htake, hlines, hstretch, rfl, ?_⟩
  have hiff := Text.first_in_line_iff hlines hstretch htake hfirst
  simp only [locationOf, locate, hiff]
  rw [Text.locate_eq hlines hstretch htake]
  split <;> rfl

/-- **In an accepted file every location leads back to its node**, and in document order, a container
before its members, locations only go forward. -/
theorem locates_of_parse {source : String} {f : File} (h : parse source = .ok f) :
    f.text = source.toList ∧ (∀ n ∈ Node.all f.nodes, f.Locates n) ∧
      ((Node.all f.nodes).map f.locationOf).Pairwise Location.Before := by
  obtain ⟨rfl, hn⟩ := parse_eq_ok_iff.mp h
  have hlocated := Node.located_ofTrees hn
  rw [Tree.tokensAll_ofTokens] at hlocated
  have hlocates : ∀ n ∈ Node.all (read source).nodes, (read source).Locates n := fun n hmem => by
    obtain ⟨run, hrun, hread⟩ := hlocated.runs n hmem
    obtain ⟨t, mid, htokens, hspan⟩ := Node.exists_span hread.nonempty
    exact locates_of_token (htokens ▸ hrun) (hread.span.trans hspan)
  refine ⟨rfl, hlocates, ?_⟩
  have hstarts : ((Node.all (read source).nodes).map fun n => n.span.start).Pairwise (· < ·) :=
    (Token.cutFrom_ofChars source.toList).pairwise_start.sublist hlocated.starts
  rw [List.pairwise_map] at hstarts ⊢
  refine hstarts.imp_of_mem fun _ hm hlt => ?_
  -- a node starts within the text, and so the order of starts is the order of locations
  obtain ⟨before, rest, htext, hbefore⟩ := (hlocates _ hm).text
  refine Text.locate_before hlt ?_
  rw [htext, List.append_assoc, List.length_append, hbefore]
  exact Nat.le_add_right _ _

/-- The members of a namespace behind a byte order mark, and a comment of two bytes a character. -/
theorem locates_of_parse_namespace :
    let source := "\uFEFF/* é */ namespace A " ++ braced "using B;" ++ "\n interface C : D " ++ braced "\n void E();"
    ∃ f, parse source = .ok f ∧ f.text = source.toList ∧ (∀ n ∈ Node.all f.nodes, f.Locates n) ∧
      ((Node.all f.nodes).map f.locationOf).Pairwise Location.Before ∧
      (Node.all f.nodes).map f.locationOf = [⟨1, 12⟩, ⟨1, 26⟩, ⟨2, 1⟩, ⟨3, 1⟩] := by
  intro source
  have hparse : parse source = .ok (read source) := by
    refine parse_eq_ok_iff.mpr ⟨rfl, ?_⟩
    decide +kernel
  obtain ⟨htext, hlocates, hforward⟩ := locates_of_parse hparse
  exact ⟨_, hparse, htext, hlocates, hforward, by decide +kernel⟩

end InteropStubs.File
