import InteropStubs.Proofs.Batch.Course
import InteropStubs.Proofs.Generate.Characters
import InteropStubs.Proofs.Generate.Session
import InteropStubs.Proofs.Text.Encoding

/-!
# Encoded input

However a text is stored, the program does with its file what `generate` does with the text
(`FileSystem.runProgram_encoded`): the output holds what is generated, in plain UTF-8 and with line feeds, or
the message of the refusal is printed and nothing is written.
-/

namespace InteropStubs

/-! ### Arguments -/

namespace CommandLine

/-- The ways to call the program on one file, with property accessors or without. -/
def invocations (accessors : Bool) (path : String) : List (List String) :=
  if accessors then [[Switch.accessors.long, path], [path, Switch.accessors.long]] else [[path]]

/-- An argument that does not begin with a dash is no option. -/
theorem classify_of_head?_ne {path : String} (h : path.toList.head? ≠ some '-') :
    classify path = .plain path := by
  unfold classify
  split <;> first | rfl | simp_all

/-- All of them ask for the one file. -/
theorem parse_invocation {path : String} (h : path.toList.head? ≠ some '-') {accessors : Bool}
    {arguments : List String} (harguments : arguments ∈ invocations accessors path) :
    parse arguments = .process [path] accessors := by
  have hdashes : path ≠ "--" := by
    rintro rfl
    exact h rfl
  have hpath := classify_of_head?_ne h
  have hswitch : classify "--property-accessors" = .option .accessors := by decide +kernel
  have herase : [path].erase "--" = [path] := by simp [hdashes]
  cases accessors with
  | false =>
      obtain rfl := List.mem_singleton.mp harguments
      simp [parse, classifyAll, hdashes, hpath, interpret, Progress.endRow, herase]
  | true =>
      simp only [invocations, if_true, Switch.long, List.mem_cons, List.not_mem_nil, or_false] at harguments
      rcases harguments with rfl | rfl <;>
        simp [parse, classifyAll, hdashes, hpath, hswitch, interpret, Progress.endRow, herase]

end CommandLine

/-! ### One file -/

namespace Batch

variable {config : Config} {fs next : FileSystem} {path : String} {failure : Failure}

/-- A batch of one file that succeeds. -/
theorem Succeeds.runOn_eq (h : Succeeds config fs path next) :
    fs.runOn (processFiles World.host config [path]) = (⟨0, progressLine path, ""⟩, next) := by
  have hcourse := (Course.passed (.cons h (.nil next))).run_eq
  simpa [progress] using hcourse

/-- A batch of one file that fails. -/
theorem FailsWith.runOn_eq (h : FailsWith config fs path failure) :
    fs.runOn (processFiles World.host config [path]) = (⟨1, progressLine path, failure.message path⟩, fs) := by
  have hstopped : Course config fs [path] [path] []
      (⟨1, progress [path], "ERROR: " ++ path ++ failure.reason ++ "\n"⟩, fs) := .stopped (.nil fs) h
  have hcourse := hstopped.run_eq
  rw [← Failure.message_eq] at hcourse
  simpa [progress] using hcourse

end Batch

/-! ### Generated text -/

/-- Generation stops for a refusal only. -/
theorem refused_of_generate {config : Config} {source : String} {stop : Stop}
    (h : generate config source = .error stop) : ∃ d, stop = .refused d := by
  obtain ⟨ls, hprints⟩ := Emit.source_prints config source
  rw [generate_eq_of_prints hprints] at h
  cases hfaults : faults config source with
  | nil => simp [hfaults, verdict, Except.map] at h
  | cons d ds =>
      simp only [hfaults, verdict, Except.map, Except.error.injEq] at h
      exact ⟨d, h.symm⟩

/-- Generated text does not begin with a byte order mark. -/
theorem head?_of_generate {config : Config} {source text : String} (h : generate config source = .ok text) :
    text.toList.head? = some '/' := by
  rw [generate_eq_alone] at h
  cases hresult : (alone config source).1 with
  | error stop => simp [hresult, Except.map] at h
  | ok _ =>
      simp only [hresult, Except.map, Except.ok.injEq] at h
      rw [← h]
      simp

open Batch Text in
/-- **The encoding of a file makes no difference.**  A text without carriage returns that does not begin with
the character of the byte order mark stands in a file with a mark or without, and with any of three line
endings; the file may be read and its output may be written. The program on the file then does what `generate`
does with the text: it ends well and the output holds just what is generated, in UTF-8 without a mark and without
carriage returns; or it prints the refusal behind the path and writes nothing. -/
theorem FileSystem.runProgram_encoded {stored : FileSystem} {path t : String} {names : List String}
    (hdash : path.toList.head? ≠ some '-') (hreturn : '\r' ∉ t.toList)
    (hmark : t.toList.head? ≠ some '\uFEFF') {mark : Bool} {e : LineEnd}
    (hstored : stored.readFile path = .ok (encode mark e t))
    (houtput : stored.target (outputPath path) = .ok names) {accessors : Bool} {arguments : List String}
    (harguments : arguments ∈ CommandLine.invocations accessors path) :
    match generate { propertyAccessors := accessors } t with
    | .ok text =>
      stored.runProgram arguments = (⟨0, progressLine path, ""⟩, stored.store names text.toUTF8) ∧
        (stored.store names text.toUTF8).LeadsTo (outputPath path) names ∧
        (stored.store names text.toUTF8).content? names = some text.toUTF8 ∧
        '\r' ∉ text.toList ∧ withoutMark text.toUTF8 = text.toUTF8
    | .error stop =>
      ∃ d, stop = .refused d ∧
        stored.runProgram arguments =
          (⟨1, progressLine path, "ERROR: " ++ path ++ d.message ++ "\n"⟩, stored) := by
  have htext := decode?_encode mark e hreturn hmark
  have hparse := CommandLine.parse_invocation hdash harguments
  have hrun : stored.runProgram arguments = _ := runProgram_eq hparse (List.cons_ne_nil _ _)
  cases hgenerate : generate { propertyAccessors := accessors } t with
  | ok text =>
      obtain ⟨hleads, hrefusal⟩ := target_eq_ok_iff.mp houtput
      have hsucceeds : Succeeds { propertyAccessors := accessors } stored path (stored.store names text.toUTF8) :=
        ⟨names, text, ⟨⟨_, t, hstored, htext, hgenerate⟩, houtput⟩, rfl⟩
      refine ⟨hrun.trans hsucceeds.runOn_eq, ?_, content?_store_same hrefusal _, ?_, ?_⟩
      · exact ((samePaths_store hrefusal _).leadsTo_iff _ _).mp hleads
      · exact returnFree_of_generate (by constructor <;> cases accessors <;> decide) hreturn hgenerate
      · have hhead := head?_of_generate hgenerate
        have : withoutMark text.toList.utf8Encode = text.toList.utf8Encode :=
          withoutMark_utf8Encode (by rw [hhead]; decide)
        rwa [String.utf8Encode_toList] at this
  | error stop =>
      obtain ⟨d, rfl⟩ := refused_of_generate hgenerate
      exact ⟨d, rfl, hrun.trans (FailsWith.refused hstored htext hgenerate).runOn_eq⟩

open Batch Text in
/-- A text with a comment of two bytes a character, stored with a mark and with lone carriage returns, under a path
from the root on and next to an output that is there already. -/
theorem FileSystem.runProgram_encoded_returns :
    let t := "\n".intercalate ["interface A : JSGlobalObject", openBrace, "  int /* é", " */ B " ++ braced "get;", closeBrace]
    let stored : FileSystem := { workingDirectory := ["home"], entries :=
      [(["home"], .directory {}), (["tmp"], .directory {}), (["tmp", "a.g.cs"], .file "old".toUTF8 {}),
        (["tmp", "a.cs"], .file (encode true .cr t) {})] }
    "/tmp/a.cs".toList.head? ≠ some '-' ∧ '\r' ∉ t.toList ∧ t.toList.head? ≠ some '\uFEFF' ∧
      stored.readFile "/tmp/a.cs" = .ok (encode true .cr t) ∧
      stored.target (outputPath "/tmp/a.cs") = .ok ["tmp", "a.g.cs"] ∧
      ∃ text, generate { propertyAccessors := true } t = .ok text ∧
        stored.runProgram ["--property-accessors", "/tmp/a.cs"] =
          (⟨0, "/tmp/a.cs => /tmp/a.g.cs\n", ""⟩, stored.store ["tmp", "a.g.cs"] text.toUTF8) ∧
        (stored.store ["tmp", "a.g.cs"] text.toUTF8).content? ["tmp", "a.g.cs"] = some text.toUTF8 ∧
        '\r' ∉ text.toList := by
  intro t stored
  have hdash : "/tmp/a.cs".toList.head? ≠ some '-' := by decide
  have hreturn : '\r' ∉ t.toList := by decide
  have hmark : t.toList.head? ≠ some '\uFEFF' := by decide
  have hleads : stored.resolve "/tmp/a.cs" = .ok ["tmp", "a.cs"] := by decide +kernel
  have hread : stored.readFile "/tmp/a.cs" = .ok (encode true .cr t) :=
    readFile_eq_ok_iff.mpr ⟨_, {}, hleads, rfl, rfl⟩
  have houtput : stored.target (outputPath "/tmp/a.cs") = .ok ["tmp", "a.g.cs"] := by decide +kernel
  obtain ⟨text, h⟩ : ∃ text, generate { propertyAccessors := true } t = .ok text :=
    exists_generate_of_isOk (by decide +kernel)
  have harguments : ["--property-accessors", "/tmp/a.cs"] ∈ CommandLine.invocations true "/tmp/a.cs" := by decide
  have hrun := runProgram_encoded hdash hreturn hmark hread houtput harguments
  rw [h] at hrun
  have hline : progressLine "/tmp/a.cs" = "/tmp/a.cs => /tmp/a.g.cs\n" := by decide +kernel
  exact ⟨hdash, hreturn, hmark, hread, houtput, text, h, hline ▸ hrun.1, hrun.2.2.1, hrun.2.2.2.1⟩

end InteropStubs
