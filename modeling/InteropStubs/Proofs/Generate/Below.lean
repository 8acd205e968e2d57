import InteropStubs.Proofs.Generate.Bare
import InteropStubs.Proofs.Generate.Refusal
import InteropStubs.Proofs.Node.Cut
import InteropStubs.Proofs.Token.Twin
import InteropStubs.Proofs.Tree.Ground

/-!
# Sources below one another

What is generated for two sources, one below the other, is what is generated for each (`generate_below`). Nothing
is asked of what is between the declarations: whatever trivia the first source ends with and the second begins
with, the tokens are those of each (`Token.exists_below`), and so are the trees and the runs.
-/

namespace InteropStubs

open Token

variable {config : Config} {source above below : String}

namespace File

/-- A source without trees, or one that begins with a declaration. -/
theorem seam_startOf (hstubbed : ∀ n ∈ Node.all (read source).nodes, n.isStubbed = true) :
    trees source = [] ∨ (read source).Seam (Tree.startOf (trees source)) := by
  have hnodes := nodes_eq hstubbed
  cases htrees : trees source with
  | nil => exact .inl rfl
  | cons t ts =>
      right
      rw [htrees] at hnodes
      rw [hnodes] at hstubbed
      obtain ⟨heq, hruns⟩ := Node.ofTreesWithin_eq_map hstubbed
      obtain ⟨us, rest, hcut⟩ : ∃ us rest, Tree.runs .file (t :: ts) = (t :: us) :: rest := ⟨_, _, rfl⟩
      rw [hcut, List.map_cons, ← hnodes] at heq
      have hspan := (Node.stubs_of_ofRun (hruns (t :: us) (hcut ▸ List.mem_cons_self))).span_eq
      have hseam := Seam.declaration (f := read source) (Node.mem_all_of_mem (heq ▸ List.mem_cons_self))
      rwa [hspan] at hseam

/-- The tokens of a source wherever it stands. -/
theorem relabelled_of_kin {ts : List Token} (hstubbed : ∀ n ∈ Node.all (read source).nodes, n.isStubbed = true)
    (h : List.Forall₂ Kin (ofChars source.toList) ts) : Relabelled source (Tree.ofTokens ts) :=
  relabelled_of_twins hstubbed (.inl rfl) (h.imp fun _ _ => Kin.twin)

/-- The tokens of a source behind other trivia. -/
theorem relabelled_of_headless {ts : List Token}
    (hstubbed : ∀ n ∈ Node.all (read source).nodes, n.isStubbed = true)
    (h : List.Forall₂ Kin (headless (ofChars source.toList)) (headless ts)) : Relabelled source (Tree.ofTokens ts) := by
  have htokens : Tree.tokensAll (trees source) = ofChars source.toList := Tree.tokensAll_ofTokens _
  rcases seam_startOf hstubbed with hnil | hseam
  · rw [← htokens, hnil] at h
    refine relabelled_of_kin hstubbed ?_
    rw [← htokens, hnil, headless_eq_nil_iff.mp (List.forall₂_nil_left_iff.mp h)]
    exact .nil
  · refine relabelled_of_twins hstubbed (hseam.isSeam hstubbed) (twins_of_headless h fun t ht => ?_)
    rw [← htokens] at ht
    cases htrees : trees source with
    | nil => exact absurd ht (by simp [htrees])
    | cons u us =>
        obtain ⟨rest, hrest⟩ := u.tokensAll_eq_head_cons us
        rw [htrees, hrest] at ht
        exact congrArg start (Option.some.inj ht).symm

/-- Words are not spelled like marks in the trees of a source. -/
theorem spelled_trees (source : String) : Tree.Spelled (trees source) := by
  have hmarks : ∀ m ∈ Words.marks, m.toList.head?.any Scan.beginsWord = false := by decide +kernel
  intro t ht hkind hmem
  rw [trees, Tree.tokensAll_ofTokens] at ht
  exact text_ne_of_not_beginsWord ht hkind (hmarks _ hmem) rfl

theorem Relabelled.spelled {ts : List Tree} (h : Relabelled source ts) : Tree.Spelled ts := by
  obtain ⟨p, φ, rfl, -⟩ := h
  intro t ht hkind hmem
  rw [Tree.tokensAll_relabel] at ht
  obtain ⟨u, hu, rfl⟩ := List.mem_map.mp ht
  rw [φ.kind] at hkind
  rw [φ.text] at hmem
  exact spelled_trees source u hu hkind hmem

/-- What goes into stubs does so wherever it stands. -/
theorem Relabelled.isStubbed {ts : List Tree} (h : Relabelled source ts)
    (hv : Node.violations config (read source).nodes = []) {depth : Nat} (hdepth : Tree.depth ts < depth) :
    ∀ k ∈ Node.all (Node.ofTreesWithin depth .file ts), k.isStubbed = true := by
  have hbare := h.bare_ofTreesWithin (Node.isStubbed_of_violations _ hv) hdepth
  have hviolations : Node.violations config (Node.ofTreesWithin depth .file ts) = [] := by
    rwa [← Node.violations_bare_iff, hbare, Node.violations_bare_iff]
  exact Node.isStubbed_of_violations _ hviolations

/-- The trees of two sources, one below the other. -/
theorem exists_trees_below (habove : Node.violations config (read above).nodes = [])
    (hbelow : Node.violations config (read below).nodes = []) :
    ∃ ts us, trees (above ++ "\n" ++ below) = ts ++ us ∧ Relabelled above ts ∧ Relabelled below us := by
  have hfirst := Node.isStubbed_of_violations _ habove
  have hsecond := Node.isStubbed_of_violations _ hbelow
  obtain ⟨ts, us, htokens, hts, hus⟩ :=
    exists_below (ended_of_isStubbed hfirst) (unbroken_of_isStubbed hfirst) 0 below.toList
  have hts := relabelled_of_kin hfirst hts
  have hus := relabelled_of_headless hsecond hus
  have hlast := Node.getLast?_of_isStubbed (hts.isStubbed habove (Nat.lt_succ_self _)) (s := "for") (by decide)
  refine ⟨_, _, ?_, hts, hus⟩
  have htrees : trees (above ++ "\n" ++ below) = Tree.ofTokens (ts ++ us) := by
    rw [trees, ← htokens, behind_zero]
    simp
  rw [htrees, Tree.ofTokens_append (hts.areClosed hfirst) hlast (hus.areClosed hsecond)]

/-- **The nodes of two sources**, one below the other. -/
theorem bare_below (habove : Node.violations config (read above).nodes = [])
    (hbelow : Node.violations config (read below).nodes = []) :
    Node.bare (read (above ++ "\n" ++ below)).nodes =
      Node.bare (read above).nodes ++ Node.bare (read below).nodes := by
  have hfirst := Node.isStubbed_of_violations _ habove
  have hsecond := Node.isStubbed_of_violations _ hbelow
  obtain ⟨ts, us, htrees, hts, hus⟩ := exists_trees_below habove hbelow
  have hnodes : (read (above ++ "\n" ++ below)).nodes =
      Node.ofTreesWithin (max (Tree.depth ts) (Tree.depth us) + 1) .file (ts ++ us) := by
    rw [← Tree.depth_append, ← Node.ofTrees_of_noShebang ((hts.noShebang hfirst).append (hus.noShebang hsecond)),
      ← htrees]
    rfl
  generalize hdepth : max (Tree.depth ts) (Tree.depth us) = depth at hnodes
  obtain ⟨hbefore, hbehind⟩ : Tree.depth ts < depth + 1 ∧ Tree.depth us < depth + 1 := by omega
  have hparted := Node.parted_of_isStubbed (hus.isStubbed hbelow (Nat.lt_succ_self _)) hus.spelled
  rw [hnodes, Node.ofTreesWithin_append (hts.isStubbed habove hbefore) hparted (hts.spelled.append hus.spelled),
    ← hts.bare_ofTreesWithin hfirst hbefore, ← hus.bare_ofTreesWithin hsecond hbehind,
    Node.bare_eq_map, Node.bare_eq_map, Node.bare_eq_map, List.map_append]

end File

/-- **What is generated for two sources, one below the other**, is what is generated for the first one and then
what is generated for the second one, without the header. -/
theorem generate_below {first second : String} (habove : generate config above = .ok first)
    (hbelow : generate config below = .ok second) :
    ∃ rest, second = "// <auto-generated />\n#nullable enable\n" ++ rest ∧
      generate config (above ++ "\n" ++ below) = .ok (first ++ rest) := by
  obtain ⟨hfirst, rfl⟩ := generate_eq_ok_iff.mp habove
  obtain ⟨hsecond, rfl⟩ := generate_eq_ok_iff.mp hbelow
  have hbare := File.bare_below hfirst hsecond
  refine ⟨Line.print config.indent 0 (Node.render config (File.read below).nodes), ?_, generate_eq_ok_iff.mpr ⟨?_, ?_⟩⟩
  · rw [Line.print_append, print_fileHeader]
  · rw [← Node.violations_bare_iff, hbare, Node.violations_append, List.append_eq_nil_iff,
      Node.violations_bare_iff, Node.violations_bare_iff]
    exact ⟨hfirst, hsecond⟩
  · rw [← Node.render_bare config (File.read (above ++ "\n" ++ below)).nodes, hbare, Node.render_append,
      Node.render_bare, Node.render_bare, ← List.append_assoc, Line.print_append _ _ (_ ++ _)]

/-- A line comment at the end of the one source, and a directive and a mark of the byte order at the beginning of
the other. -/
theorem generate_below_comment :
    let above := "using A; // x"
    let below := "\uFEFF#region y\nnamespace N " ++ braced ""
    let header := "// <auto-generated />\n#nullable enable\n"
    let block := "\n".intercalate ["namespace N", openBrace, closeBrace, ""]
    generate {} above = .ok (header ++ "using A;\n") ∧ generate {} below = .ok (header ++ block) ∧
      ∃ rest, header ++ block = header ++ rest ∧
        generate {} (above ++ "\n" ++ below) = .ok (header ++ "using A;\n" ++ rest) := by
  intro above below header block
  have habove : generate {} above = .ok (header ++ "using A;\n") := by decide +kernel
  have hbelow : generate {} below = .ok (header ++ block) := by decide +kernel
  exact ⟨habove, hbelow, generate_below habove hbelow⟩

end InteropStubs
