import InteropStubs.Proofs.Batch.Encoding
import InteropStubs.Proofs.Text.WellFormed

/-!
# Decoded input

The program takes a file for text just if the bytes behind its byte order mark are well-formed UTF-8, and then it does
with the file what it does with the one text that they encode, its line ends unified
(`FileSystem.runProgram_decodes`). All other files are reported and leave everything as it was.
-/

namespace InteropStubs

/-! ### A file whose text is known -/

namespace Batch

open FileSystem

variable {config : Config} {fs : FileSystem} {path source : String} {bytes : ByteArray}

/-- What the program does with a single file that holds a text: its report, and the file system that it leaves. -/
def resultOf (config : Config) (fs : FileSystem) (path source : String) : Report × FileSystem :=
  match generate config source with
  | .error stop => (⟨1, progressLine path, (Failure.stopped stop).message path⟩, fs)
  | .ok text =>
    match fs.writeFile (outputPath path) text.toUTF8 with
    | .error e => (⟨1, progressLine path, (Failure.cannotOpen e).message path⟩, fs)
    | .ok next => (⟨0, progressLine path, ""⟩, next)

/-- A file that holds a text is processed as `resultOf` says. -/
theorem runOn_of_decode (hread : fs.readFile path = .ok bytes) (htext : Text.decode? bytes = some source) :
    fs.runOn (processFiles World.host config [path]) = resultOf config fs path source := by
  unfold resultOf
  cases hgenerate : generate config source with
  | error stop => exact (FailsWith.refused hread htext hgenerate).runOn_eq
  | ok text =>
      dsimp only
      rw [writeFile]
      cases htarget : fs.target (outputPath path) with
      | error e => exact (FailsWith.output hread htext hgenerate htarget).runOn_eq
      | ok names =>
          have hsucceeds : Succeeds config fs path (fs.store names text.toUTF8) :=
            ⟨names, text, ⟨⟨bytes, source, hread, htext, hgenerate⟩, htarget⟩, rfl⟩
          exact hsucceeds.runOn_eq

/-- A message about a path tells its reason. -/
theorem Failure.reason_of_message {failure other : Failure} (h : failure.message path = other.message path) :
    failure.reason = other.reason := by
  rw [Failure.message_eq, Failure.message_eq] at h
  have hchars := congrArg String.toList h
  simp only [String.toList_append, List.append_assoc, List.append_cancel_left_eq] at hchars
  exact String.toList_injective (List.append_cancel_right hchars)

/-- No other failure is reported in the same words. -/
theorem stderr_resultOf_ne (config : Config) (fs : FileSystem) (path source : String) :
    (resultOf config fs path source).1.stderr ≠ Failure.notText.message path := by
  unfold resultOf
  cases hgenerate : generate config source with
  | error stop =>
      obtain ⟨d, rfl⟩ := refused_of_generate hgenerate
      intro (h : (Failure.stopped (.refused d)).message path = Failure.notText.message path)
      -- a refusal begins with its place in parentheses
      have hhead := congrArg (fun s : String => s.toList.head?) (Failure.reason_of_message h)
      simp [Failure.reason, Stop.text, Diagnostic.message] at hhead
  | ok text =>
      dsimp only
      rw [writeFile]
      cases htarget : fs.target (outputPath path) with
      | error e =>
          intro (h : (Failure.cannotOpen e).message path = Failure.notText.message path)
          -- the words of a system do not begin with a small letter
          have htail := congrArg (fun s : String => s.toList.drop 2) (Failure.reason_of_message h)
          have hhead : e.text.toList.head? = some 'n' := by
            have heq : e.text.toList = "not a UTF-8 text file".toList := by
              simpa [Failure.reason] using htail
            rw [heq]
            decide
          have hsmall := e.isLower_head_text
          rw [hhead] at hsmall
          exact absurd hsmall (by decide)
      | ok names =>
          intro h
          simp [Except.map, Failure.message_eq] at h

end Batch

/-! ### The program on one file -/

open Batch Text in
/-- **What is read is exactly UTF-8.** A file is reported to be no text, and then nothing is written, just if the bytes
behind its byte order mark are not well formed; only a file that is a beginning of the mark is read as an empty text
instead. Every other file is read as the one text whose encoding stands behind the mark, with each line end replaced by
a line feed, so that no carriage return is left and a second mark is the first character of the text. -/
theorem FileSystem.runProgram_decodes {fs : FileSystem} {path : String} {bytes : ByteArray} {accessors : Bool}
    {arguments : List String} (harguments : CommandLine.parse arguments = .process [path] accessors)
    (hread : fs.readFile path = .ok bytes) :
    ((fs.runProgram arguments).1.stderr = "ERROR: " ++ path ++ ": not a UTF-8 text file\n" ↔
        ¬ WellFormed (behindMark bytes.data.toList) ∧ ¬ IsCutMark bytes.data.toList) ∧
      (¬ WellFormed (behindMark bytes.data.toList) ∧ ¬ IsCutMark bytes.data.toList →
        fs.runProgram arguments =
          (⟨1, progressLine path, "ERROR: " ++ path ++ ": not a UTF-8 text file\n"⟩, fs)) ∧
      (IsCutMark bytes.data.toList →
        fs.runProgram arguments = resultOf { propertyAccessors := accessors } fs path "") ∧
      (WellFormed (behindMark bytes.data.toList) → ∃ written source : String,
        (∀ t, bytesIn t = behindMark bytes.data.toList ↔ t = written) ∧
        Unified written.toList source.toList ∧ '\r' ∉ source.toList ∧
        ([0xEF, 0xBB, 0xBF] <+: behindMark bytes.data.toList → source.toList.head? = some '\uFEFF') ∧
        fs.runProgram arguments = resultOf { propertyAccessors := accessors } fs path source) := by
  have hrun : fs.runProgram arguments = _ := runProgram_eq harguments (List.cons_ne_nil _ _)
  have hill (h : ¬ WellFormed (behindMark bytes.data.toList) ∧ ¬ IsCutMark bytes.data.toList) :
      fs.runProgram arguments = (⟨1, progressLine path, Failure.notText.message path⟩, fs) := by
    rw [hrun, (FailsWith.notText hread (decode?_eq_none_iff.mpr h)).runOn_eq]
  refine ⟨⟨fun h => ?_, fun h => by rw [hill h]; rfl⟩, hill, fun hcut => ?_, fun hwell => ?_⟩
  · rw [← decode?_eq_none_iff, Option.eq_none_iff_forall_ne_some]
    intro source htext
    rw [hrun, runOn_of_decode hread htext] at h
    exact stderr_resultOf_ne _ _ _ _ h
  · rw [hrun, runOn_of_decode hread (decode?_of_isCutMark hcut)]
  · obtain ⟨written, hwritten⟩ := wellFormed_iff_exists.mp hwell
    have hcut : ¬ IsCutMark bytes.data.toList := fun hcut => not_wellFormed_of_isCutMark hcut hwell
    have hunified := unified_unifyLineEnds written.toList
    refine ⟨written, String.ofList (unifyLineEnds written.toList), fun t => ?_, ?_, ?_, fun hmark => ?_, ?_⟩
    · rw [← hwritten]
      exact ⟨eq_of_bytesIn, congrArg bytesIn⟩
    · rwa [String.toList_ofList]
    · rw [String.toList_ofList]
      exact hunified.notMem
    · rw [String.toList_ofList]
      exact hunified.head?_eq (by decide) (head?_of_bytesIn (hwritten ▸ hmark))
    · rw [hrun, runOn_of_decode hread (decode?_eq_of_bytesIn hcut hwritten)]

open Batch Text in
/-- Behind a mark, a line feed in two bytes where one would do: the file is no text, whichever way the program is called
on it. -/
theorem FileSystem.runProgram_decodes_overlong :
    let bytes : ByteArray := ⟨#[0xEF, 0xBB, 0xBF, 0xC0, 0x8A]⟩
    let stored : FileSystem := ({} : FileSystem).put ["-a.cs"] (.file bytes {})
    CommandLine.parse ["--prop", "--", "-a.cs"] = .process ["-a.cs"] true ∧
      stored.readFile "-a.cs" = .ok bytes ∧
      ¬ WellFormed (behindMark bytes.data.toList) ∧ ¬ IsCutMark bytes.data.toList ∧
      stored.runProgram ["--prop", "--", "-a.cs"] =
        (⟨1, "-a.cs => -a.g.cs\n", "ERROR: -a.cs: not a UTF-8 text file\n"⟩, stored) := by
  intro bytes stored
  have harguments : CommandLine.parse ["--prop", "--", "-a.cs"] = .process ["-a.cs"] true := by decide +kernel
  have hread : stored.readFile "-a.cs" = .ok bytes := by decide +kernel
  have hnone : String.fromUTF8? ⟨#[0xC0, 0x8A]⟩ = none := by decide
  have hwell : ¬ WellFormed (behindMark bytes.data.toList) := fromUTF8?_eq_none_iff.mp hnone
  have hcut : ¬ IsCutMark bytes.data.toList := by decide
  have hline : progressLine "-a.cs" = "-a.cs => -a.g.cs\n" := by decide +kernel
  have hmessage : "ERROR: " ++ "-a.cs" ++ ": not a UTF-8 text file\n" = "ERROR: -a.cs: not a UTF-8 text file\n" := by
    decide
  have hrun := (runProgram_decodes harguments hread).2.1 ⟨hwell, hcut⟩
  rw [hline, hmessage] at hrun
  exact ⟨harguments, hread, hwell, hcut, hrun⟩

end InteropStubs
