import InteropStubs.Proofs.Batch.Course
import InteropStubs.Proofs.Batch.Output

/-!
# The order of a batch

Where no input of a batch is an output of it (`Apart`), the files do not see each other: each writes
what it writes on the file system that the batch starts with (`Passes.writes`, `exists_passes`). What
is in a file afterwards is what any of the inputs whose output it is writes there, since all of those
are one file (`Passes.lookup?_of_writes`). So the order of the files does not matter
(`runProgram_perm`).
-/

namespace InteropStubs

open FileSystem

namespace Batch

variable {config : Config} {fs gs last : FileSystem} {path path' : String}

/-- No input is the output of an input. -/
def Apart (fs : FileSystem) (files : List String) : Prop :=
  ∀ path ∈ files, ∀ other ∈ files, ∀ names,
    fs.LeadsTo path names → ¬ fs.LeadsTo (outputPath other) names

/-- Fewer files are apart, too. -/
theorem Apart.tail {files : List String} (h : Apart fs (path :: files)) : Apart fs files :=
  fun path hpath other hother =>
    h path (List.mem_cons_of_mem _ hpath) other (List.mem_cons_of_mem _ hother)

/-- Files are apart as long as paths stay. -/
theorem Apart.of_samePaths {files : List String} (h : Apart fs files)
    (hsame : SamePaths fs gs) : Apart gs files :=
  fun path hpath other hother names hleads houtput => h path hpath other hother names
    ((hsame.leadsTo_iff _ _).mpr hleads) ((hsame.leadsTo_iff _ _).mpr houtput)

theorem Apart.perm {files files' : List String} (h : Apart fs files) (hperm : files.Perm files') :
    Apart fs files' :=
  fun path hpath other hother =>
    h path (hperm.mem_iff.mpr hpath) other (hperm.mem_iff.mpr hother)

/-! ### What a file writes -/

/-- A file writes to where the path of its output leads. -/
theorem Writes.leadsTo {names : List String} {text : String}
    (h : Writes config fs path names text) : fs.LeadsTo (outputPath path) names :=
  (target_eq_ok_iff.mp h.target_eq).1

/-- A file writes the same wherever its input holds the same, and paths are the same. -/
theorem Writes.of_samePaths {names : List String} {text : String}
    (h : Writes config fs path names text) (hsame : SamePaths fs gs)
    (hinput : ∀ names, fs.LeadsTo path names → gs.lookup? names = fs.lookup? names) :
    Writes config gs path names text := by
  obtain ⟨⟨bytes, source, hread, htext, hgenerate⟩, htarget⟩ := h
  obtain ⟨input, access, hleads, hlookup, hreading⟩ := readFile_eq_ok_iff.mp hread
  have hread' : gs.readFile path = .ok bytes := readFile_eq_ok_iff.mpr
    ⟨input, access, (hsame.leadsTo_iff _ _).mp hleads, (hinput input hleads).trans hlookup, hreading⟩
  exact ⟨⟨bytes, source, hread', htext, hgenerate⟩, hsame.target_eq_ok_iff.mp htarget⟩

/-- Two files that write to the same names write the same. -/
theorem Writes.text_eq {names : List String} {text text' : String}
    (h : Writes config fs path names text) (h' : Writes config fs path' names text') :
    text = text' := by
  obtain ⟨⟨bytes, source, hread, htext, hgenerate⟩, -⟩ := id h
  obtain ⟨⟨bytes', source', hread', htext', hgenerate'⟩, -⟩ := id h'
  obtain ⟨input, access, hleads, hlookup, -⟩ := readFile_eq_ok_iff.mp hread
  obtain ⟨input', access', hleads', hlookup', -⟩ := readFile_eq_ok_iff.mp hread'
  obtain rfl := hleads.of_output hleads' h.leadsTo h'.leadsTo
  obtain rfl : bytes = bytes' := (Entry.file.inj (Option.some.inj (hlookup.symm.trans hlookup'))).1
  obtain rfl : source = source' := by simpa using htext.symm.trans htext'
  simpa using hgenerate.symm.trans hgenerate'

/-! ### All files -/

/-- The output of a file is no input. -/
theorem Succeeds.lookup?_input {files : List String} {next : FileSystem}
    (h : Succeeds config fs path next) (hapart : Apart fs (path :: files)) {other : String}
    (hother : other ∈ files) {names : List String} (hleads : fs.LeadsTo other names) :
    next.lookup? names = fs.lookup? names :=
  h.lookup?_eq (hapart other (List.mem_cons_of_mem _ hother) path List.mem_cons_self names hleads)

/-- Every file of a batch that passes writes to the file system that the batch starts with. -/
theorem Passes.writes {files : List String} (h : Passes config fs files last)
    (hapart : Apart fs files) :
    ∀ path ∈ files, ∃ names text, Writes config fs path names text := by
  induction h with
  | nil fs => exact nofun
  | @cons fs next last path files hfirst hrest ih =>
      have hsame := hfirst.samePaths
      refine List.forall_mem_cons.mpr ⟨?_, fun other hother => ?_⟩
      · obtain ⟨names, text, hwrites, -⟩ := hfirst
        exact ⟨names, text, hwrites⟩
      · obtain ⟨names, text, hwrites⟩ := ih (hapart.tail.of_samePaths hsame) other hother
        refine ⟨names, text, hwrites.of_samePaths hsame.symm fun input hleads => ?_⟩
        exact (hfirst.lookup?_input hapart hother ((hsame.leadsTo_iff _ _).mpr hleads)).symm

/-- If every file writes to the file system that the batch starts with, the batch passes. -/
theorem exists_passes {files : List String} (hapart : Apart fs files)
    (hwrites : ∀ path ∈ files, ∃ names text, Writes config fs path names text) :
    ∃ last, Passes config fs files last := by
  induction files generalizing fs with
  | nil => exact ⟨fs, .nil fs⟩
  | cons path files ih =>
      obtain ⟨⟨names, text, hwrite⟩, hrest⟩ := List.forall_mem_cons.mp hwrites
      have hfirst : Succeeds config fs path (fs.store names text.toUTF8) :=
        ⟨names, text, hwrite, rfl⟩
      have hsame := hfirst.samePaths
      obtain ⟨last, hlast⟩ := ih (hapart.tail.of_samePaths hsame) fun other hother => by
        obtain ⟨names, text, hwrites⟩ := hrest other hother
        exact ⟨names, text, hwrites.of_samePaths hsame fun input hleads =>
          hfirst.lookup?_input hapart hother hleads⟩
      exact ⟨last, .cons hfirst hlast⟩

/-- **An output holds what any of its inputs writes.** -/
theorem Passes.lookup?_of_writes {files : List String} (h : Passes config fs files last)
    (hapart : Apart fs files) (hpath : path ∈ files) {names : List String} {text : String}
    (hwrites : Writes config fs path names text) :
    last.lookup? names = some (.file text.toUTF8 (fs.accessOf names)) := by
  induction h generalizing path with
  | nil fs => simp at hpath
  | @cons fs next last first files hfirst hrest ih =>
      have hsame := hfirst.samePaths
      have hinput {other : String} (hother : other ∈ files) {input : List String}
          (hleads : fs.LeadsTo other input) : next.lookup? input = fs.lookup? input :=
        hfirst.lookup?_input hapart hother hleads
      by_cases hlater : ∃ later ∈ files, fs.LeadsTo (outputPath later) names
      · -- the last file with this output comes later, and it writes the same
        obtain ⟨later, hmem, hleads⟩ := hlater
        obtain ⟨names', text', hwrites'⟩ :=
          hrest.writes (hapart.tail.of_samePaths hsame) later hmem
        obtain rfl := ((hsame.leadsTo_iff _ _).mp hleads).unique hwrites'.leadsTo
        have hbefore : Writes config fs later names text' :=
          hwrites'.of_samePaths hsame.symm fun input hleads =>
            (hinput hmem ((hsame.leadsTo_iff _ _).mpr hleads)).symm
        obtain rfl := hwrites.text_eq hbefore
        rw [hsame.access]
        exact ih (hapart.tail.of_samePaths hsame) hmem hwrites'
      · rw [hrest.lookup?_eq fun later hmem hleads =>
          hlater ⟨later, hmem, (hsame.leadsTo_iff _ _).mpr hleads⟩]
        obtain rfl : path = first := (List.mem_cons.mp hpath).resolve_right fun hmem =>
          hlater ⟨path, hmem, hwrites.leadsTo⟩
        obtain ⟨names', text', hwrites', rfl⟩ := hfirst
        obtain rfl := hwrites.leadsTo.unique hwrites'.leadsTo
        rw [hwrites.text_eq hwrites']
        exact lookup?_store_same (target_eq_ok_iff.mp hwrites'.target_eq).2 _

/-- **Batches commute.** A batch that passes does so in every order, and leaves the same files. -/
theorem Passes.perm {files files' : List String} (h : Passes config fs files last)
    (hapart : Apart fs files) (hperm : files.Perm files') :
    ∃ last', Passes config fs files' last' ∧ ∀ names, last'.lookup? names = last.lookup? names := by
  have hwrites := h.writes hapart
  obtain ⟨last', h'⟩ := exists_passes (hapart.perm hperm)
    fun path hpath => hwrites path (hperm.mem_iff.mpr hpath)
  refine ⟨last', h', fun names => ?_⟩
  by_cases houtput : ∃ path ∈ files, fs.LeadsTo (outputPath path) names
  · obtain ⟨path, hpath, hleads⟩ := houtput
    obtain ⟨names', text, hwrite⟩ := hwrites path hpath
    obtain rfl := hleads.unique hwrite.leadsTo
    rw [h.lookup?_of_writes hapart hpath hwrite,
      h'.lookup?_of_writes (hapart.perm hperm) (hperm.mem_iff.mp hpath) hwrite]
  · rw [h.lookup?_eq fun path hpath hleads => houtput ⟨path, hpath, hleads⟩,
      h'.lookup?_eq fun path hpath hleads => houtput ⟨path, hperm.mem_iff.mpr hpath, hleads⟩]

/-! ### The program -/

/-- A batch that ends well has files, and all of them succeed. -/
theorem passes_of_exitCode_eq_zero {arguments files : List String} {propertyAccessors : Bool}
    (hparse : CommandLine.parse arguments = .process files propertyAccessors)
    (hzero : (fs.runProgram arguments).1.exitCode = 0) :
    files ≠ [] ∧ Passes { propertyAccessors } fs files (fs.runProgram arguments).2 := by
  have hfiles : files ≠ [] := by
    rintro rfl
    rw [runProgram, run, hparse] at hzero
    exact absurd hzero Nat.one_ne_zero
  rw [runProgram_eq hparse hfiles] at hzero ⊢
  obtain ⟨processed, succeeded, result, hcourse⟩ := exists_course { propertyAccessors } fs files
  rw [hcourse.run_eq] at hzero ⊢
  cases hcourse with
  | passed hall => exact ⟨hfiles, hall⟩
  | stopped hbefore hfails => exact absurd hzero (by simp)

end Batch

namespace CommandLine

/-- Without ambiguous arguments the row of arguments is read as it stands. -/
theorem parse_eq_interpret {texts : List String}
    (h : ∀ text, .ambiguous text ∉ classifyAll texts) :
    parse texts = interpret {} (classifyAll texts) := by
  simp only [parse]
  split
  next a hfind =>
    cases a with
    | ambiguous text => exact absurd (List.mem_of_find?_eq_some hfind) (h text)
    | _ => exact absurd (List.find?_some hfind) (by simp)
  next => rfl

/-- Plain arguments are gathered. -/
theorem interpret_plain (p : Progress) (texts : List String) :
    interpret p (texts.map .plain) = interpret { p with row := p.row ++ texts } [] := by
  induction texts generalizing p with
  | nil => simp
  | cons text texts ih => simp [interpret, ih]

/-- Behind `--` every argument is a file. -/
theorem interpret_dashes (p : Progress) (hrow : p.row = []) (hfiles : p.files = none)
    (hextras : p.extras = []) (files : List String) :
    interpret p (("--" :: files).map .plain) = .process files p.propertyAccessors := by
  rw [interpret_plain]
  simp [interpret, Progress.endRow, hrow, hfiles, hextras]

/-- Arguments that ask for some files. -/
def asking (files : List String) (propertyAccessors : Bool) : List String :=
  (if propertyAccessors then ["--property-accessors"] else []) ++ "--" :: files

/-- Any files can be asked for. -/
theorem parse_asking (files : List String) (propertyAccessors : Bool) :
    parse (asking files propertyAccessors) = .process files propertyAccessors := by
  cases propertyAccessors with
  | false =>
      have hclass : classifyAll (asking files false) = ("--" :: files).map .plain := by
        simp [asking, classifyAll]
      rw [parse_eq_interpret (by simp [hclass]), hclass]
      exact interpret_dashes {} rfl rfl rfl files
  | true =>
      have hoption : classify "--property-accessors" = .option .accessors := by decide
      have hclass : classifyAll (asking files true) =
          .option .accessors :: ("--" :: files).map .plain := by
        simp [asking, classifyAll, hoption]
      rw [parse_eq_interpret (by simp [hclass]), hclass]
      exact interpret_dashes { propertyAccessors := true } rfl rfl rfl files

end CommandLine

open Batch

/-- **The order of the files does not matter.** If a batch ends well and none of its inputs is an
output of it, then the batch ends well in every order, and every file holds the same afterwards.
Every order can be asked for. -/
theorem FileSystem.runProgram_perm {fs : FileSystem} {arguments files files' : List String}
    {propertyAccessors : Bool}
    (hparse : CommandLine.parse arguments = .process files propertyAccessors)
    (hapart : ∀ path ∈ files, ∀ other ∈ files, ∀ names,
      fs.LeadsTo path names → ¬ fs.LeadsTo (outputPath other) names)
    (hzero : (fs.runProgram arguments).1.exitCode = 0) (hperm : files.Perm files') :
    (∃ arguments', CommandLine.parse arguments' = .process files' propertyAccessors) ∧
    ∀ arguments', CommandLine.parse arguments' = .process files' propertyAccessors →
      (fs.runProgram arguments').1.exitCode = 0 ∧
      ∀ names, (fs.runProgram arguments').2.lookup? names = (fs.runProgram arguments).2.lookup? names := by
  obtain ⟨hfiles, hpasses⟩ := passes_of_exitCode_eq_zero hparse hzero
  refine ⟨⟨_, CommandLine.parse_asking files' propertyAccessors⟩, fun arguments' hparse' => ?_⟩
  obtain ⟨last, hlast, hsame⟩ := hpasses.perm hapart hperm
  have hfiles' : files' ≠ [] := fun hnil => hfiles (hperm.trans (.of_eq hnil)).eq_nil
  rw [runProgram_eq hparse' hfiles', (Course.passed hlast).run_eq]
  exact ⟨rfl, hsame⟩

/-- Seen from a directory, a file under three spellings of its path, one of them from the root on, and another
file. -/
theorem FileSystem.runProgram_perm_spellings :
    let fs : FileSystem := { workingDirectory := ["home"], entries :=
      [(["home"], .directory {}), (["home", "b"], .file "".toUTF8 {}),
        (["home", "a.cs"], .file "interface A : JSGlobalObject;".toUTF8 {})] }
    (fs.runProgram ["a.cs", "/home/a.cs", "b", "../home/./a.cs"]).1.exitCode = 0 ∧
      (fs.runProgram ["--", "b", "../home/./a.cs", "a.cs", "/home/a.cs"]).1.exitCode = 0 ∧
      ∀ names, (fs.runProgram ["--", "b", "../home/./a.cs", "a.cs", "/home/a.cs"]).2.lookup? names =
        (fs.runProgram ["a.cs", "/home/a.cs", "b", "../home/./a.cs"]).2.lookup? names := by
  intro fs
  have hzero : (fs.runProgram ["a.cs", "/home/a.cs", "b", "../home/./a.cs"]).1.exitCode = 0 := by decide +kernel
  have hparse : CommandLine.parse ["a.cs", "/home/a.cs", "b", "../home/./a.cs"] =
      .process ["a.cs", "/home/a.cs", "b", "../home/./a.cs"] false := by decide +kernel
  have hperm : ["a.cs", "/home/a.cs", "b", "../home/./a.cs"].Perm ["b", "../home/./a.cs", "a.cs", "/home/a.cs"] := by
    decide
  have hinput : ∀ path ∈ ["a.cs", "/home/a.cs", "b", "../home/./a.cs"],
      (fs.resolve path).toOption ∈ [some ["home", "a.cs"], some ["home", "b"]] := by
    decide +kernel
  have houtput : ∀ path ∈ ["a.cs", "/home/a.cs", "b", "../home/./a.cs"],
      (fs.resolve (outputPath path)).toOption ∈ [some ["home", "a.g.cs"], some ["home", "b.g"]] := by
    decide +kernel
  have hapart : ∀ path ∈ ["a.cs", "/home/a.cs", "b", "../home/./a.cs"],
      ∀ other ∈ ["a.cs", "/home/a.cs", "b", "../home/./a.cs"], ∀ names,
        fs.LeadsTo path names → ¬ fs.LeadsTo (outputPath other) names := by
    intro path hpath other hother names hleads hleads'
    have h := hinput path hpath
    have h' := houtput other hother
    rw [LeadsTo] at hleads hleads'
    simp only [hleads, hleads', Except.toOption, List.mem_cons, Option.some.injEq, List.not_mem_nil, or_false] at h h'
    rcases h with rfl | rfl <;> simp at h'
  have hrun := runProgram_perm hparse hapart hzero hperm
  exact ⟨hzero, hrun.2 _ (CommandLine.parse_asking _ false)⟩

end InteropStubs
