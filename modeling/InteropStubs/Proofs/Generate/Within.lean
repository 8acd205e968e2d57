import InteropStubs.Proofs.Generate.Below
import InteropStubs.Proofs.Node.Namespace

/-!
# Sources in namespaces

What is generated for a source in a namespace is what is generated for the source, one step deeper and between
braces (`generate_inNamespace`). The source may end in the middle of a line comment and begin with whatever trivia:
its tokens are the same in the braces, its trees close no brace, and so its items are those of the body.
-/

namespace InteropStubs

open Token

variable {config : Config} {names : List String} {source text : String}

/-- A source in a namespace. -/
def inNamespace (names : List String) (source : String) : String :=
  "namespace " ++ ".".intercalate names ++ "\n" ++ openBrace ++ "\n" ++ source ++ "\n" ++ closeBrace

/-! ### The namespace -/

namespace File

/-- The trees of a source in a namespace. -/
theorem exists_trees_inNamespace (hne : names ≠ [])
    (hnames : ∀ w ∈ names, Scan.word? w.toList = some w.length)
    (hv : Node.violations config (read source).nodes = []) :
    ∃ word name opening inner closing,
      trees (inNamespace names source) = Tree.block word name opening inner closing ∧
        (word.kind = .word ∧ word.text = "namespace") ∧ Dotted names name ∧ Relabelled source inner := by
  have hstubbed := Node.isStubbed_of_violations _ hv
  obtain ⟨word, name, opening, us, closing, htokens, hword, hname, hopening, hus, hclosing⟩ :=
    exists_block hne hnames (ended_of_isStubbed hstubbed) (unbroken_of_isStubbed hstubbed)
  have hinner : Relabelled source (Tree.ofTokens us) := relabelled_of_headless hstubbed hus
  have hstray := Node.stray_of_isStubbed (hinner.isStubbed hv (Nat.lt_succ_self _)) hinner.spelled
  have hchars : (inNamespace names source).toList = "namespace".toList ++ ' ' ::
      ((".".intercalate names).toList ++ '\n' :: '{' :: '\n' :: (source.toList ++ ['\n', '}'])) := by
    simp [inNamespace]
  rw [← hchars] at htokens
  have hspelled := spelled_trees (inNamespace names source)
  rw [Tree.Spelled, trees, Tree.tokensAll_ofTokens, htokens] at hspelled
  have hplain : ∀ t ∈ word :: name, t.kind = .word → t.text ∉ Words.marks :=
    fun t ht => hspelled t (List.mem_append_left _ ht)
  refine ⟨word, name, opening, Tree.ofTokens us, closing, ?_, hword, hname, hinner⟩
  rw [trees, htokens]
  exact Tree.ofTokens_block hword.1 hname hopening hclosing hplain (hinner.areClosed hstubbed) hstray

/-- **The nodes of a source in a namespace** are the namespace and the nodes of the source in it. -/
theorem bare_inNamespace (hne : names ≠ []) (hnames : ∀ w ∈ names, Scan.word? w.toList = some w.length)
    (hv : Node.violations config (read source).nodes = []) :
    Node.bare (read (inNamespace names source)).nodes =
      [.namespaceBlock ⟨0, ""⟩ (".".intercalate names) (Node.bare (read source).nodes)] := by
  have hstubbed := Node.isStubbed_of_violations _ hv
  obtain ⟨word, name, opening, inner, closing, htrees, hword, hname, hinner⟩ :=
    exists_trees_inNamespace hne hnames hv
  have hitems := hinner.isStubbed hv (Nat.lt_succ_self _)
  generalize inNamespace names source = wrapped at htrees ⊢
  have hspelled := spelled_trees wrapped
  have hshebang : Node.NoShebang (trees wrapped) := by
    rw [htrees]
    intro t ht u hu
    obtain rfl : .token word = t := Option.some.inj ht
    obtain rfl := Tree.token.inj hu
    simp [hword.1]
  have hnodes : (read wrapped).nodes = Node.ofTreesWithin (Tree.depth (trees wrapped) + 1) .file (trees wrapped) :=
    Node.ofTrees_of_noShebang hshebang
  rw [htrees] at hspelled hnodes
  have hfault : Node.fault? inner = none := Node.fault?_of_isStubbed hitems
  rw [hnodes, Tree.depth_block, Node.ofTreesWithin_block hword hname hspelled hfault,
    Node.ofTreesWithin_body hitems hinner.spelled, Node.bare, Node.bare, Node.bareIn,
    hinner.bare_ofTreesWithin hstubbed (Nat.lt_succ_self _)]

end File

/-! ### The lines -/

/-- The lines that are generated for a source, in the order in which they were ended. What is copied from the source
is one line, even if it is written over several. -/
def generateLines (config : Config) (source : String) : Except Stop (List String) :=
  let program := do
    Emit.lines fileHeader
    Emit.source config source
  match program.runOn { unit := config.indent } with
  | (.ok (), e) => .ok e.lines.toList
  | (.error stop, _) => .error stop

/-- Lines between the braces of a namespace: one step deeper, unless they are empty. -/
def blockLines (config : Config) (names : List String) (lines : List String) : List String :=
  ["namespace " ++ ".".intercalate names, openBrace] ++
    (lines.map fun line => if line.isEmpty then "" else config.indent ++ line) ++ [closeBrace]

theorem generateLines_of_prints {result : Except Stop Unit} {ls : List Line}
    (h : Emit.Prints (Emit.source config source) result ls) :
    generateLines config source = result.map fun _ => fileHeader ++ ls.map (Line.indented config.indent 0) := by
  have hrun := (Emit.Prints.lines fileHeader).bind h { unit := config.indent }
  rw [Emitter.lay_of_pending_eq_none rfl] at hrun
  simp only [generateLines, hrun]
  cases result <;> simp [Except.map, Line.indented, fileHeader]

/-- The generated file is the generated lines, every one of them ended. -/
theorem generate_eq_map_generateLines (config : Config) (source : String) :
    generate config source =
      (generateLines config source).map fun lines => String.join (lines.map (· ++ "\n")) := by
  obtain ⟨ls, hprints⟩ := Emit.source_prints config source
  rw [generate_eq_of_prints hprints, generateLines_of_prints hprints, Emitter.output_lay_start, Line.print]
  cases verdict (faults config source) <;> simp [Except.map, Line.indented, fileHeader, Function.comp_def]

/-- One step deeper, lines that are not empty begin with one more unit. -/
theorem indented_deeper (unit : String) (ls : List Line) :
    (Line.deeper 1 ls).map (Line.indented unit 0) =
      (ls.map (Line.indented unit 0)).map fun line => if line.isEmpty then "" else unit ++ line := by
  rw [Line.deeper, List.map_map, List.map_map]
  refine List.map_congr_left fun l _ => ?_
  by_cases htext : l.text = ""
  · simp [Line.indented, htext]
  · simp [Line.indented, htext, String.append_assoc, List.replicate_succ]

theorem blockLines_eq (config : Config) (names : List String) (ls : List Line) :
    (Line.nested ["namespace " ++ ".".intercalate names] ls).map (Line.indented config.indent 0) =
      blockLines config names (ls.map (Line.indented config.indent 0)) := by
  rw [Line.nested, List.map_append, List.map_append, blockLines, List.length_singleton, indented_deeper]
  simp [Line.openers, Line.closers, Line.indented]

/-- **Namespaces only indent.** If something is generated for a source, it is generated for the source in a
namespace as well, whatever words the name of the namespace is made of: the lines are the header of the namespace and
its braces around those of the source, one step deeper unless they are empty. -/
theorem generate_inNamespace (hne : names ≠ []) (hnames : ∀ w ∈ names, Scan.word? w.toList = some w.length)
    (h : generate config source = .ok text) :
    ∃ L, generateLines config source = .ok (fileHeader ++ L) ∧
      text = String.join ((fileHeader ++ L).map (· ++ "\n")) ∧
      generateLines config (inNamespace names source) = .ok (fileHeader ++ blockLines config names L) ∧
      generate config (inNamespace names source) =
        .ok (String.join ((fileHeader ++ blockLines config names L).map (· ++ "\n"))) := by
  have hv := (generate_eq_ok_iff.mp h).1
  have hbare := File.bare_inNamespace hne hnames hv
  -- Neither checks nor rendering look at places, so `hbare` is enough to compare the two files.
  have hviolations : Node.violations config (File.read (inNamespace names source)).nodes = [] := by
    rw [← Node.violations_bare_iff, hbare, Node.violations, Node.violations, List.append_nil, Node.violationsIn,
      Node.violations_bare_iff, hv]
  have hrender : Node.render config (File.read (inNamespace names source)).nodes =
      Line.nested ["namespace " ++ ".".intercalate names] (Node.render config (File.read source).nodes) := by
    rw [← Node.render_bare config (File.read (inNamespace names source)).nodes, hbare, Node.render, Node.render,
      List.append_nil, Node.renderNode, Node.render_bare]
  have hlines := generateLines_of_prints (source_prints_render hv)
  have hblock := generateLines_of_prints (source_prints_render hviolations)
  rw [hrender, blockLines_eq] at hblock
  refine ⟨_, hlines, ?_, hblock, ?_⟩
  · rw [generate_eq_map_generateLines, hlines] at h
    exact (Except.ok.inj h).symm
  · rw [generate_eq_map_generateLines, hblock]
    rfl

/-- A using directive on two lines, an interface, and a line comment at the end, which the closing brace is not
part of. -/
theorem generate_inNamespace_comment :
    let source := "using\n  A;\ninterface I : JSObjectWrapper " ++ braced ("int P " ++ braced "get;") ++ " // x"
    ["N", "O"] ≠ [] ∧ (∀ w ∈ ["N", "O"], Scan.word? w.toList = some w.length) ∧
      ∃ text L, generate {} source = .ok text ∧ generateLines {} source = .ok (fileHeader ++ L) ∧
        text = String.join ((fileHeader ++ L).map (· ++ "\n")) ∧
        generateLines {} (inNamespace ["N", "O"] source) = .ok (fileHeader ++ blockLines {} ["N", "O"] L) ∧
        generate {} (inNamespace ["N", "O"] source) =
          .ok (String.join ((fileHeader ++ blockLines {} ["N", "O"] L).map (· ++ "\n"))) := by
  intro source
  have hnames : ∀ w ∈ ["N", "O"], Scan.word? w.toList = some w.length := by decide +kernel
  obtain ⟨text, h⟩ : ∃ text, generate {} source = .ok text := exists_generate_of_isOk (by decide +kernel)
  obtain ⟨L, hL⟩ := generate_inNamespace (List.cons_ne_nil _ _) hnames h
  exact ⟨List.cons_ne_nil _ _, hnames, text, L, h, hL⟩

end InteropStubs
