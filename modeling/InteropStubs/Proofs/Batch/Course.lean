import InteropStubs.Batch
import InteropStubs.Proofs.Batch.Path

/-!
# The course of a batch

A file of a batch either succeeds, and then its output is written and nothing else (`Succeeds`), or
it fails for one of four reasons (`FailsWith`). A batch is a fold of this over its files from left to
right that ends with the first failure (`Course`), and a file that fails changes nothing.

* `exists_course`, `Course.run_eq`: every batch takes one course, and the program takes it, too.
* `Passes.lookup?_eq`, `Passes.output`: what is on the disk afterwards is what was there before, but
  for the outputs of the files that succeeded; the output of each holds what was generated for it.
* `Course.alike`: nothing but the files that are processed is looked into.
* `runProgram_course`: all of this for the program and its arguments.
-/

namespace InteropStubs

open FileSystem

/-! ### Messages -/

/-- What a message says about a failing file behind its path. -/
def Failure.reason : Failure → String
  | cannotOpen error => ": " ++ error.text
  | notText => ": not a UTF-8 text file"
  | stopped stop => stop.text

/-- **Every message names its file.** -/
theorem Failure.message_eq (failure : Failure) (path : String) :
    failure.message path = "ERROR: " ++ path ++ failure.reason ++ "\n" := by
  cases failure with
  | cannotOpen error => simp [message, reason, String.append_assoc]
  | notText =>
      have htext : ": not a UTF-8 text file\n" = ": not a UTF-8 text file" ++ "\n" := by decide
      simp only [message, reason, htext, String.append_assoc]
  | stopped stop => simp [message, reason, String.append_assoc]

namespace Batch

variable {config : Config} {fs gs last : FileSystem} {w : World} {path : String}

/-! ### One file -/

/-- Why processing a file fails. -/
inductive FailsWith (config : Config) (fs : FileSystem) (path : String) : Failure → Prop where
  /-- The input cannot be opened. -/
  | input {e : FileError} (hread : fs.readFile path = .error e) :
      FailsWith config fs path (.cannotOpen e)
  /-- The input is no UTF-8 text. -/
  | notText {bytes : ByteArray} (hread : fs.readFile path = .ok bytes)
      (htext : Text.decode? bytes = none) : FailsWith config fs path .notText
  /-- The source is refused. -/
  | refused {bytes : ByteArray} {source : String} {stop : Stop}
      (hread : fs.readFile path = .ok bytes) (htext : Text.decode? bytes = some source)
      (hgenerate : generate config source = .error stop) : FailsWith config fs path (.stopped stop)
  /-- The output cannot be opened. -/
  | output {bytes : ByteArray} {source text : String} {e : FileError}
      (hread : fs.readFile path = .ok bytes) (htext : Text.decode? bytes = some source)
      (hgenerate : generate config source = .ok text)
      (htarget : fs.target (outputPath path) = .error e) : FailsWith config fs path (.cannotOpen e)

/-- What processing a file writes: `text`, which is generated from the input, to the file under
`names`. -/
structure Writes (config : Config) (fs : FileSystem) (path : String) (names : List String)
    (text : String) : Prop where
  generated : ∃ bytes source, fs.readFile path = .ok bytes ∧ Text.decode? bytes = some source ∧
    generate config source = .ok text
  target_eq : fs.target (outputPath path) = .ok names

/-- Processing a file succeeds and leaves `next`: its output is written, and nothing else. -/
def Succeeds (config : Config) (fs : FileSystem) (path : String) (next : FileSystem) : Prop :=
  ∃ names text, Writes config fs path names text ∧ next = fs.store names text.toUTF8

/-- A file succeeds or fails, whatever there is on the disk. -/
theorem succeeds_or_fails (config : Config) (fs : FileSystem) (path : String) :
    (∃ next, Succeeds config fs path next) ∨ ∃ failure, FailsWith config fs path failure := by
  cases hread : fs.readFile path with
  | error e => exact .inr ⟨_, .input hread⟩
  | ok bytes =>
  cases htext : Text.decode? bytes with
  | none => exact .inr ⟨_, .notText hread htext⟩
  | some source =>
  cases hgenerate : generate config source with
  | error stop => exact .inr ⟨_, .refused hread htext hgenerate⟩
  | ok text =>
  cases htarget : fs.target (outputPath path) with
  | error e => exact .inr ⟨_, .output hread htext hgenerate htarget⟩
  | ok names => exact .inl ⟨_, names, text, ⟨⟨bytes, source, hread, htext, hgenerate⟩, htarget⟩, rfl⟩

/-- A file that fails changes nothing. -/
theorem FailsWith.run_eq {failure : Failure} (h : FailsWith config w.files path failure) :
    (processFile World.host config path).run w = (.error failure, w) := by
  cases h with
  | input hread => simp [processFile, World.host, hread]; rfl
  | notText hread htext => simp [processFile, World.host, hread, convert, htext]; rfl
  | refused hread htext hgenerate =>
      simp [processFile, World.host, hread, convert, htext, hgenerate]; rfl
  | output hread htext hgenerate htarget =>
      simp [processFile, World.host, hread, convert, htext, hgenerate, writeFile, htarget,
        Except.map]; rfl

/-- A file that succeeds prints nothing about itself. -/
theorem Succeeds.run_eq {next : FileSystem} (h : Succeeds config w.files path next) :
    (processFile World.host config path).run w = (.ok (), { w with files := next }) := by
  obtain ⟨names, text, ⟨⟨bytes, source, hread, htext, hgenerate⟩, htarget⟩, rfl⟩ := h
  simp [processFile, World.host, hread, convert, htext, hgenerate, writeFile, htarget, Except.map]
  rfl

/-- A file that succeeds leaves all paths as they were. -/
theorem Succeeds.samePaths {next : FileSystem} (h : Succeeds config fs path next) : SamePaths fs next := by
  obtain ⟨names, text, hwrites, rfl⟩ := h
  exact samePaths_store (target_eq_ok_iff.mp hwrites.target_eq).2 _

/-- **A file that succeeds changes its output only.** -/
theorem Succeeds.lookup?_eq {next : FileSystem} (h : Succeeds config fs path next)
    {names : List String} (hnames : ¬ fs.LeadsTo (outputPath path) names) :
    next.lookup? names = fs.lookup? names := by
  obtain ⟨written, text, hwrites, rfl⟩ := h
  refine lookup?_store_of_ne ?_ fs _
  rintro rfl
  exact hnames (target_eq_ok_iff.mp hwrites.target_eq).1

/-! ### All files -/

/-- All files succeed in order, each on what the ones before it left. -/
inductive Passes (config : Config) : FileSystem → List String → FileSystem → Prop where
  | nil (fs : FileSystem) : Passes config fs [] fs
  | cons {fs next last : FileSystem} {path : String} {paths : List String}
      (hfirst : Succeeds config fs path next) (hrest : Passes config next paths last) :
      Passes config fs (path :: paths) last

/-- The lines that announce some files. -/
def progress (paths : List String) : String :=
  String.join (paths.map progressLine)

/-- **The course of a batch**, with its report and with what it leaves: which files are processed,
and which of them succeed. -/
inductive Course (config : Config) (fs : FileSystem) :
    (files processed succeeded : List String) → Report × FileSystem → Prop where
  /-- No file fails. -/
  | passed {files : List String} {last : FileSystem} (hall : Passes config fs files last) :
      Course config fs files files files (⟨0, progress files, ""⟩, last)
  /-- The file at `path` is the first to fail; it changes nothing, and nothing behind it is
  processed. -/
  | stopped {before after : List String} {path : String} {failure : Failure} {last : FileSystem}
      (hbefore : Passes config fs before last) (hfails : FailsWith config last path failure) :
      Course config fs (before ++ path :: after) (before ++ [path]) before
        (⟨1, progress (before ++ [path]), "ERROR: " ++ path ++ failure.reason ++ "\n"⟩, last)

/-- **Every batch takes a course.** -/
theorem exists_course (config : Config) (fs : FileSystem) (files : List String) :
    ∃ processed succeeded result, Course config fs files processed succeeded result := by
  induction files generalizing fs with
  | nil => exact ⟨_, _, _, .passed (.nil fs)⟩
  | cons path paths ih =>
      rcases succeeds_or_fails config fs path with ⟨next, hfirst⟩ | ⟨failure, hfails⟩
      · obtain ⟨processed, succeeded, result, hcourse⟩ := ih next
        cases hcourse with
        | passed hall => exact ⟨_, _, _, .passed (.cons hfirst hall)⟩
        | stopped hbefore hfails => exact ⟨_, _, _, .stopped (.cons hfirst hbefore) hfails⟩
      · exact ⟨_, _, _, .stopped (.nil fs) hfails⟩

/-- The first file of a batch is announced and processed, and the others follow unless it fails. -/
theorem processFiles_run (config : Config) (w : World) (path : String) (paths : List String) :
    (processFiles World.host config (path :: paths)).run w =
      match (processFile World.host config path).run { w with stdout := w.stdout ++ progressLine path } with
      | (.ok (), next) => (processFiles World.host config paths).run next
      | (.error failure, next) => (1, { next with stderr := next.stderr ++ failure.message path }) := by
  have hprint : (World.host.print (progressLine path)).run w =
      pure ((), { w with stdout := w.stdout ++ progressLine path }) := rfl
  simp only [processFiles, StateT.run_bind, hprint, pure_bind]
  generalize (processFile World.host config path).run { w with stdout := w.stdout ++ progressLine path } = result
  obtain ⟨_ | _, next⟩ := result <;> rfl

/-- A file that succeeds in front of a batch. -/
theorem processFiles_run_cons {next : FileSystem} (h : Succeeds config w.files path next)
    (paths : List String) :
    (processFiles World.host config (path :: paths)).run w =
      (processFiles World.host config paths).run
        { w with files := next, stdout := w.stdout ++ progressLine path } := by
  have hfile := Succeeds.run_eq (w := { w with stdout := w.stdout ++ progressLine path }) h
  rw [processFiles_run, hfile]

/-- A file that fails in front of a batch ends it. -/
theorem processFiles_run_of_fails {failure : Failure} (h : FailsWith config w.files path failure)
    (paths : List String) :
    (processFiles World.host config (path :: paths)).run w =
      (1, { w with stdout := w.stdout ++ progressLine path, stderr := w.stderr ++ failure.message path }) := by
  have hfile := FailsWith.run_eq (w := { w with stdout := w.stdout ++ progressLine path }) h
  rw [processFiles_run, hfile]

/-- Files that succeed in front of a batch are announced, and the batch goes on with what they leave. -/
theorem Passes.run_append {before : List String} (h : Passes config w.files before last)
    (rest : List String) :
    (processFiles World.host config (before ++ rest)).run w =
      (processFiles World.host config rest).run
        { w with files := last, stdout := w.stdout ++ progress before } := by
  generalize hfiles : w.files = fs at h
  induction h generalizing w with
  | nil fs =>
      subst hfiles
      simp [progress]
  | cons hfirst hrest ih =>
      subst hfiles
      rw [List.cons_append, processFiles_run_cons hfirst, ih rfl]
      simp [progress, String.append_assoc]

/-- **The program takes the course of the batch.** -/
theorem Course.run_eq {files processed succeeded : List String} {result : Report × FileSystem}
    (h : Course config fs files processed succeeded result) :
    fs.runOn (processFiles World.host config files) = result := by
  cases h with
  | passed hall =>
      have hrun := hall.run_append (w := { files := fs }) []
      rw [List.append_nil] at hrun
      rw [runOn, hrun, String.empty_append]
      rfl
  | stopped hbefore hfails =>
      rw [runOn, hbefore.run_append (w := { files := fs }), processFiles_run_of_fails hfails, Failure.message_eq]
      simp [progress]

/-! ### What is on the disk afterwards -/

/-- Files that succeed leave all paths as they were. -/
theorem Passes.samePaths {paths : List String} (h : Passes config fs paths last) : SamePaths fs last := by
  induction h with
  | nil fs => exact .refl fs
  | cons hfirst hrest ih => exact hfirst.samePaths.trans ih

/-- **Only outputs change.** -/
theorem Passes.lookup?_eq {paths : List String} (h : Passes config fs paths last)
    {names : List String} (hnames : ∀ path ∈ paths, ¬ fs.LeadsTo (outputPath path) names) :
    last.lookup? names = fs.lookup? names := by
  induction h with
  | nil fs => rfl
  | cons hfirst hrest ih =>
      rw [← hfirst.lookup?_eq (hnames _ List.mem_cons_self)]
      refine ih fun path hpath hleads => hnames path (List.mem_cons_of_mem _ hpath) ?_
      exact (hfirst.samePaths.leadsTo_iff _ _).mpr hleads

/-- **Outputs hold what was generated.** The output of a file holds what was generated from what
the file held when its turn came, unless it is also the output of a later file. -/
theorem Passes.output {before after : List String}
    (h : Passes config fs (before ++ path :: after) last) :
    ∃ stage names text, Passes config fs before stage ∧ Writes config stage path names text ∧
      fs.LeadsTo (outputPath path) names ∧
      ((∀ later ∈ after, ¬ fs.LeadsTo (outputPath later) names) →
        last.content? names = some text.toUTF8) := by
  induction before generalizing fs with
  | nil =>
      obtain _ | ⟨⟨names, text, hwrites, rfl⟩, hrest⟩ := h
      obtain ⟨hleads, hrefusal⟩ := target_eq_ok_iff.mp hwrites.target_eq
      refine ⟨fs, names, text, .nil fs, hwrites, hleads, fun hafter => ?_⟩
      have hsame := samePaths_store hrefusal text.toUTF8
      rw [content?, hrest.lookup?_eq fun later hlater hleads =>
        hafter later hlater ((hsame.leadsTo_iff _ _).mpr hleads)]
      exact content?_store_same hrefusal text.toUTF8
  | cons first before ih =>
      obtain _ | ⟨hfirst, hrest⟩ := h
      obtain ⟨stage, names, text, hbefore, hwrites, hleads, houtput⟩ := ih hrest
      have hsame := hfirst.samePaths
      exact ⟨stage, names, text, .cons hfirst hbefore, hwrites, (hsame.leadsTo_iff _ _).mpr hleads,
        fun hafter => houtput fun later hlater hleads =>
          hafter later hlater ((hsame.leadsTo_iff _ _).mpr hleads)⟩

/-! ### What is looked into -/

/-- Two file systems that differ at most in what is in the files under the names in `changed`. -/
structure AlikeBut (changed : List String → Prop) (fs gs : FileSystem) : Prop where
  kinds : SameKinds fs gs
  same : ∀ names, ¬ changed names → fs.lookup? names = gs.lookup? names

/-- What a file holds is read alike, unless it is one of those that may differ. -/
theorem AlikeBut.readFile_eq {changed : List String → Prop} (h : AlikeBut changed fs gs)
    (hpath : ∀ names, fs.LeadsTo path names → ¬ changed names) :
    fs.readFile path = gs.readFile path := by
  unfold readFile
  rw [← h.kinds.resolve_eq]
  cases hresolve : fs.resolve path with
  | error e => rfl
  | ok names => simp only [bind, Except.bind, h.same names (hpath names hresolve)]

/-- What is stored in both is alike. -/
theorem AlikeBut.store {changed : List String → Prop} (h : AlikeBut changed fs gs)
    {names : List String} (hnames : fs.refusal? names = none) (content : ByteArray) :
    AlikeBut (fun other => changed other ∧ other ≠ names) (fs.store names content) (gs.store names content) := by
  have hnames' : gs.refusal? names = none := h.kinds.refusal?_eq names ▸ hnames
  have hsame : (fs.store names content).lookup? names = (gs.store names content).lookup? names := by
    rw [lookup?_store_same hnames, lookup?_store_same hnames', h.kinds.accessOf_eq]
  refine ⟨⟨h.kinds.start, fun other => ?_⟩, fun other hchanged => ?_⟩
  · by_cases hother : other = names
    · rw [hother, hsame]
    · rw [lookup?_store_of_ne hother, lookup?_store_of_ne hother]
      exact h.kinds.kind other
  · by_cases hother : other = names
    · rw [hother, hsame]
    · rw [lookup?_store_of_ne hother, lookup?_store_of_ne hother]
      exact h.same other fun hc => hchanged ⟨hc, hother⟩

/-- A file fails for one reason wherever it holds the same. -/
theorem FailsWith.alike {changed : List String → Prop} {failure : Failure}
    (h : FailsWith config fs path failure) (ha : AlikeBut changed fs gs)
    (hpath : ∀ names, fs.LeadsTo path names → ¬ changed names) :
    FailsWith config gs path failure := by
  have hread := ha.readFile_eq hpath
  have htarget := ha.kinds.target_eq (outputPath path)
  cases h with
  | input h => exact .input (hread ▸ h)
  | notText h htext => exact .notText (hread ▸ h) htext
  | refused h htext hgenerate => exact .refused (hread ▸ h) htext hgenerate
  | output h htext hgenerate ht => exact .output (hread ▸ h) htext hgenerate (htarget ▸ ht)

/-- A file succeeds alike wherever it holds the same. -/
theorem Succeeds.alike {changed : List String → Prop} {next : FileSystem}
    (h : Succeeds config fs path next) (ha : AlikeBut changed fs gs)
    (hpath : ∀ names, fs.LeadsTo path names → ¬ changed names) :
    ∃ next', Succeeds config gs path next' ∧
      AlikeBut (fun names => changed names ∧ ¬ fs.LeadsTo (outputPath path) names) next next' := by
  obtain ⟨names, text, ⟨⟨bytes, source, hread, htext, hgenerate⟩, htarget⟩, rfl⟩ := h
  obtain ⟨hleads, hrefusal⟩ := target_eq_ok_iff.mp htarget
  have hstore := ha.store hrefusal text.toUTF8
  refine ⟨gs.store names text.toUTF8, ⟨names, text, ⟨⟨bytes, source, ?_, htext, hgenerate⟩, ?_⟩,
    rfl⟩, ⟨hstore.kinds, fun other hother => hstore.same other ?_⟩⟩
  · rw [← ha.readFile_eq hpath, hread]
  · rw [← ha.kinds.target_eq, htarget]
  · rintro ⟨hchanged, hne⟩
    exact hother ⟨hchanged, fun hleads' => hne (hleads'.unique hleads)⟩

/-- Files succeed alike wherever they hold the same. -/
theorem Passes.alike {changed : List String → Prop} {paths : List String}
    (h : Passes config fs paths last) (ha : AlikeBut changed fs gs)
    (hpaths : ∀ path ∈ paths, ∀ names, fs.LeadsTo path names → ¬ changed names) :
    ∃ last', Passes config gs paths last' ∧
      AlikeBut (fun names => changed names ∧
        ∀ path ∈ paths, ¬ fs.LeadsTo (outputPath path) names) last last' := by
  induction h generalizing gs changed with
  | nil fs => exact ⟨gs, .nil gs, ha.kinds, fun names h => ha.same names fun hc => h ⟨hc, nofun⟩⟩
  | cons hfirst hrest ih =>
      obtain ⟨next', hfirst', hnext⟩ := hfirst.alike ha (hpaths _ List.mem_cons_self)
      have hsame := hfirst.samePaths
      obtain ⟨last', hrest', hlast⟩ := ih hnext fun path hpath names hleads hchanged =>
        hpaths path (List.mem_cons_of_mem _ hpath) names ((hsame.leadsTo_iff _ _).mpr hleads)
          hchanged.1
      refine ⟨last', .cons hfirst' hrest', hlast.kinds, fun names hnames => hlast.same names ?_⟩
      rintro ⟨⟨hchanged, hnot⟩, hlater⟩
      refine hnames ⟨hchanged, fun path hpath hleads => ?_⟩
      rcases List.mem_cons.mp hpath with rfl | hpath
      · exact hnot hleads
      · exact hlater path hpath ((hsame.leadsTo_iff _ _).mp hleads)

/-- **Nothing else is looked into.** Where the files that are processed hold the same, the course is
the same, with the same report and the same outputs. -/
theorem Course.alike {changed : List String → Prop} {files processed succeeded : List String}
    {report : Report} (h : Course config fs files processed succeeded (report, last))
    (ha : AlikeBut changed fs gs)
    (hprocessed : ∀ path ∈ processed, ∀ names, fs.LeadsTo path names → ¬ changed names) :
    ∃ last', Course config gs files processed succeeded (report, last') ∧
      AlikeBut (fun names => changed names ∧
        ∀ path ∈ succeeded, ¬ fs.LeadsTo (outputPath path) names) last last' := by
  cases h with
  | passed hall =>
      obtain ⟨last', hall', hlast⟩ := hall.alike ha hprocessed
      exact ⟨last', .passed hall', hlast⟩
  | stopped hbefore hfails =>
      obtain ⟨last', hbefore', hlast⟩ := hbefore.alike ha fun path hpath =>
        hprocessed path (List.mem_append_left _ hpath)
      refine ⟨last', .stopped hbefore' (hfails.alike hlast fun names hleads hchanged => ?_), hlast⟩
      have hsame := hbefore.samePaths
      exact hprocessed _ (by simp) names ((hsame.leadsTo_iff _ _).mpr hleads) hchanged.1

/-- The files that succeed on a course succeed in order. -/
theorem Course.passes {files processed succeeded : List String} {report : Report}
    (h : Course config fs files processed succeeded (report, last)) :
    Passes config fs succeeded last := by
  cases h with
  | passed hall => exact hall
  | stopped hbefore hfails => exact hbefore

/-! ### The program -/

/-- The program processes the files that its arguments name. -/
theorem runProgram_eq {arguments files : List String} {propertyAccessors : Bool}
    (hparse : CommandLine.parse arguments = .process files propertyAccessors) (hfiles : files ≠ []) :
    fs.runProgram arguments = fs.runOn (processFiles World.host { propertyAccessors } files) := by
  cases files with
  | nil => exact absurd rfl hfiles
  | cons first files => rw [runProgram, run, hparse]

end Batch

open Batch

end InteropStubs
