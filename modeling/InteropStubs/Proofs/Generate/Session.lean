import InteropStubs.Proofs.Generate.Refusal

/-!
# Sessions

A session writes sources one after the other through one emitter and goes on after a failure. No
source leaves a depth or a fragment behind, whether it ends well or not (`Emit.source_runOn`), so
the sources do not see one another (`session_independent`): each ends as it does alone, and the text
of the session is that of the sources on their own, one behind the other. The generated file of a
source is the header and the text of its own session (`generate_eq_alone`).
-/

namespace InteropStubs

open Emit

/-- One fresh emitter through all sources: how each ended, and the emitter after it. -/
def session (config : Config) (sources : List String) : List (Except Stop Unit × Emitter) :=
  generateAll config { unit := config.indent } sources

/-- The session of a single source. -/
def alone (config : Config) (source : String) : Except Stop Unit × Emitter :=
  (Emit.source config source).runOn { unit := config.indent }

/-- An emitter between two sources: nothing is open and nothing pending. -/
structure Emitter.AtRest (config : Config) (e : Emitter) : Prop where
  unit_eq : e.unit = config.indent
  pending_eq : e.pending = none
  depth_eq : e.depth = 0

theorem Emitter.atRest_start (config : Config) :
    ({ unit := config.indent } : Emitter).AtRest config :=
  ⟨rfl, rfl, rfl⟩

/-- **A source at rest.**  It ends as it does alone, leaves the emitter at rest, and adds the text
that it writes alone. -/
theorem Emit.source_runOn {config : Config} {e : Emitter} (he : e.AtRest config)
    (source : String) :
    ∃ next, (Emit.source config source).runOn e = ((alone config source).1, next) ∧
      next.AtRest config ∧ next.output = e.output ++ (alone config source).2.output := by
  obtain ⟨ls, hprints⟩ := Emit.source_prints config source
  refine ⟨e.lay ls, ?_, ⟨?_, ?_, ?_⟩, ?_⟩
  · rw [alone, hprints, hprints]
  · rw [Emitter.lay_unit, he.unit_eq]
  · rw [Emitter.lay_of_pending_eq_none he.pending_eq]
    exact he.pending_eq
  · rw [Emitter.lay_depth, he.depth_eq]
  · rw [alone, hprints, Emitter.output_lay he.pending_eq, Emitter.output_lay_start, he.unit_eq,
      he.depth_eq]

/-- **A run over sources at rest.** -/
theorem generateAll_getElem? {config : Config} {e : Emitter} (he : e.AtRest config)
    {sources : List String} {i : Nat} {source : String} (h : sources[i]? = some source) :
    ∃ next, (generateAll config e sources)[i]? = some ((alone config source).1, next) ∧
      next.AtRest config ∧
      next.output = e.output ++
        String.join ((sources.take (i + 1)).map fun s => (alone config s).2.output) := by
  induction sources generalizing e i with
  | nil => simp at h
  | cons first sources ih =>
      obtain ⟨next, hrun, hnext, houtput⟩ := Emit.source_runOn he first
      cases i with
      | zero =>
          obtain rfl : first = source := by simpa using h
          exact ⟨next, by simp [generateAll, hrun], hnext, by simp [houtput]⟩
      | succ i =>
          obtain ⟨last, hget, hlast, htext⟩ := ih hnext h
          refine ⟨last, by simpa [generateAll, hrun] using hget, hlast, ?_⟩
          rw [htext, houtput, List.take_succ_cons, List.map_cons, String.join_cons,
            String.append_assoc]

theorem length_generateAll (config : Config) (e : Emitter) (sources : List String) :
    (generateAll config e sources).length = sources.length := by
  induction sources generalizing e with
  | nil => rfl
  | cons source sources ih => simp [generateAll, ih]

/-- The generated file of a source is the header and what the source writes alone. -/
theorem generate_eq_alone (config : Config) (source : String) :
    generate config source = (alone config source).1.map fun _ =>
      "// <auto-generated />\n#nullable enable\n" ++ (alone config source).2.output := by
  obtain ⟨ls, hprints⟩ := Emit.source_prints config source
  rw [generate_eq_of_prints hprints, alone, hprints, Emitter.output_lay_start,
    Emitter.output_lay_start, Line.print_append, print_fileHeader]

/-- **Sources do not interfere.**  After each source of a session the depth is zero and nothing is
pending; the source has ended as it does alone, and the text is that of the sources so far, each
alone, one behind the other.  The generated file of a source is the two header lines and its own
text. -/
theorem session_independent (config : Config) (sources : List String) :
    (session config sources).length = sources.length ∧
    (∀ source, session config [source] = [alone config source]) ∧
    (∀ i source, sources[i]? = some source →
      ∃ e, (session config sources)[i]? = some ((alone config source).1, e) ∧
        e.depth = 0 ∧ e.pending = none ∧
        e.output = String.join ((sources.take (i + 1)).map fun s => (alone config s).2.output)) ∧
    (∀ source, generate config source = (alone config source).1.map fun _ =>
      "// <auto-generated />\n#nullable enable\n" ++ (alone config source).2.output) := by
  refine ⟨length_generateAll config _ sources, fun source => rfl, fun i source h => ?_,
    generate_eq_alone config⟩
  obtain ⟨e, hget, he, houtput⟩ := generateAll_getElem? (Emitter.atRest_start config) h
  exact ⟨e, hget, he.depth_eq, he.pending_eq, houtput.trans (by simp [Emitter.output])⟩

/-- A using directive behind a source that stops inside a namespace and one that is no declaration
file. -/
theorem session_independent_behind_failures :
    let sources := ["using A;", "namespace N " ++ braced ("class C " ++ braced ""), closeBrace, "using B;"]
    sources[3]? = some "using B;" ∧
    ∃ e, (session {} sources)[3]? = some ((alone {} "using B;").1, e) ∧
      e.depth = 0 ∧ e.pending = none ∧
      e.output = "\n".intercalate ["using A;", "namespace N", openBrace, closeBrace, "using B;", ""] := by
  intro sources
  obtain ⟨e, hget, hdepth, hpending, houtput⟩ :=
    (session_independent {} sources).2.2.1 3 "using B;" rfl
  have htext : String.join ((sources.take 4).map fun s => (alone {} s).2.output) =
      "\n".intercalate ["using A;", "namespace N", openBrace, closeBrace, "using B;", ""] := by decide +kernel
  exact ⟨rfl, e, hget, hdepth, hpending, houtput.trans htext⟩

end InteropStubs
