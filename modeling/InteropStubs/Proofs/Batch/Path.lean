import InteropStubs.FileSystem

/-!
# Paths and the files they lead to

What a path leads to depends on the directories of a file system alone, and a file that is written
is no directory. So paths keep leading to the same names while files are written, and the same files
can be written (`samePaths_store`); and two file systems that differ only in what is in their files
resolve all paths alike, the failures included (`SameKinds.resolve_eq`).

Reading and writing are each described by the names that a path leads to (`readFile_eq_ok_iff`,
`target_eq_ok_iff`), and what is written is stored (`content?_store_same`).
-/

namespace InteropStubs

/-- What can be said of an entry without a look into it: whether it is a directory, and what may be
done with it. -/
def Entry.kind : Entry → Bool × Access
  | directory access => (true, access)
  | file _ access => (false, access)

namespace FileSystem

variable {fs gs hs : FileSystem} {path part : String} {names other : List String} {content : ByteArray}

/-! ### Entries -/

/-- The root is a directory. -/
@[simp] theorem lookup?_nil (fs : FileSystem) : fs.lookup? [] = some (.directory fs.root) := rfl

/-- Entries under other names play no part in a lookup. -/
theorem lookup_filter_ne (h : other ≠ names) (entries : List (List String × Entry)) :
    (entries.filter fun e => e.1 != names).lookup other = entries.lookup other := by
  induction entries with
  | nil => rfl
  | cons e entries ih =>
      obtain ⟨key, value⟩ := e
      by_cases hkey : key = names
      · subst hkey
        have hother : (other == key) = false := beq_false_of_ne h
        simp [List.lookup_cons, hother, ih]
      · simp [hkey, List.lookup_cons, ih]

/-- An entry is put under its own names and leaves all others alone. -/
theorem lookup?_put_of_ne (h : other ≠ names) (fs : FileSystem) (e : Entry) :
    (fs.put names e).lookup? other = fs.lookup? other := by
  have hother : (other == names) = false := beq_false_of_ne h
  simp [lookup?, put, List.lookup_cons, hother, lookup_filter_ne h]

/-- What is in the file under some names. -/
def content? (fs : FileSystem) (names : List String) : Option ByteArray :=
  match fs.lookup? names with
  | some (.file content _) => some content
  | _ => none

/-- Nothing is written over the root. -/
theorem ne_nil_of_refusal? (h : fs.refusal? names = none) : names ≠ [] := by
  rintro rfl
  exact absurd h (by simp [refusal?])

/-- What can be written is no directory. -/
theorem lookup?_ne_directory (h : fs.refusal? names = none) (access : Access) :
    fs.lookup? names ≠ some (.directory access) := by
  intro hdirectory
  exact absurd h (by simp [refusal?, hdirectory])

theorem lookup?_store_same (h : fs.refusal? names = none) (content : ByteArray) :
    (fs.store names content).lookup? names = some (.file content (fs.accessOf names)) :=
  lookup?_put_same fs names _ (ne_nil_of_refusal? h)

theorem lookup?_store_of_ne (h : other ≠ names) (fs : FileSystem) (content : ByteArray) :
    (fs.store names content).lookup? other = fs.lookup? other :=
  lookup?_put_of_ne h fs _

/-- What is stored is there. -/
theorem content?_store_same (h : fs.refusal? names = none) (content : ByteArray) :
    (fs.store names content).content? names = some content := by
  rw [content?, lookup?_store_same h]

/-! ### Paths that stay -/

/-- Paths that lead somewhere lead to the same names, the same files can be written, and they would
have the same access. -/
structure SamePaths (fs gs : FileSystem) : Prop where
  start : fs.workingDirectory = gs.workingDirectory
  directory : ∀ names access,
    fs.lookup? names = some (.directory access) ↔ gs.lookup? names = some (.directory access)
  writable : ∀ names, fs.refusal? names = none ↔ gs.refusal? names = none
  access : ∀ names, fs.accessOf names = gs.accessOf names

theorem SamePaths.refl (fs : FileSystem) : SamePaths fs fs :=
  ⟨rfl, fun _ _ => Iff.rfl, fun _ => Iff.rfl, fun _ => rfl⟩

theorem SamePaths.symm (h : SamePaths fs gs) : SamePaths gs fs :=
  ⟨h.start.symm, fun names access => (h.directory names access).symm, fun names => (h.writable names).symm,
    fun names => (h.access names).symm⟩

theorem SamePaths.trans (h : SamePaths fs gs) (h' : SamePaths gs hs) : SamePaths fs hs :=
  ⟨h.start.trans h'.start, fun names access => (h.directory names access).trans (h'.directory names access),
    fun names => (h.writable names).trans (h'.writable names),
    fun names => (h.access names).trans (h'.access names)⟩

/-- The file that is stored is no directory that another file would be made in. -/
theorem refusalIn?_store (h : fs.refusal? names = none) (content : ByteArray) (other : List String) :
    (fs.store names content).refusalIn? other = fs.refusalIn? other := by
  by_cases hother : other = names
  · subst hother
    rw [refusalIn?, refusalIn?, lookup?_store_same h]
    split
    · next access hdirectory => exact absurd hdirectory nofun
    · split
      · next access hdirectory => exact absurd hdirectory (lookup?_ne_directory h access)
      · rfl
  · rw [refusalIn?, refusalIn?, lookup?_store_of_ne hother]

/-- What can be written, whether it is there or to be made, lets itself be written again. -/
theorem writing_accessOf (h : fs.refusal? names = none) : (fs.accessOf names).writing = none := by
  unfold refusal? at h
  unfold accessOf
  split at h
  · exact absurd h nofun
  · next hfile => rw [hfile]; exact h
  · next hnone => rw [hnone]

/-- What could be written before a file is stored can be written afterwards, and nothing else can. -/
theorem refusal?_store (h : fs.refusal? names = none) (content : ByteArray) (other : List String) :
    fs.refusal? other = none ↔ (fs.store names content).refusal? other = none := by
  by_cases hother : other = names
  · subst hother
    have hagain : (fs.store other content).refusal? other = none := by
      rw [refusal?, lookup?_store_same h]
      exact writing_accessOf h
    exact iff_of_true h hagain
  · rw [refusal?, refusal?, lookup?_store_of_ne hother, refusalIn?_store h]

/-- **Paths stay while files are written.** -/
theorem samePaths_store (h : fs.refusal? names = none) (content : ByteArray) :
    SamePaths fs (fs.store names content) where
  start := rfl
  directory other access := by
    by_cases hother : other = names
    · subst hother
      rw [lookup?_store_same h]
      exact iff_of_false (lookup?_ne_directory h access) nofun
    · rw [lookup?_store_of_ne hother]
  writable := refusal?_store h content
  access other := by
    by_cases hother : other = names
    · subst hother
      have hfile := lookup?_store_same h content
      simp only [accessOf, hfile]
    · simp only [accessOf, lookup?_store_of_ne hother]

/-! ### Resolution -/

/-- From a directory a path goes on in the same way in every file system. -/
theorem advance_of_directory {access : Access} (hf : fs.lookup? names = some (.directory access))
    (hg : gs.lookup? names = some (.directory access)) (part : String) :
    fs.advance names part = gs.advance names part := by
  simp only [advance, hf, hg]

/-- A path goes on from directories only. -/
theorem exists_directory_of_advance (h : fs.advance names part = .ok other) :
    ∃ access, fs.lookup? names = some (.directory access) := by
  unfold advance at h
  split at h
  · exact nomatch h
  · exact nomatch h
  · exact ⟨_, ‹_›⟩

theorem SamePaths.advance_ok (h : SamePaths fs gs) (hf : fs.advance names part = .ok other) :
    gs.advance names part = .ok other := by
  obtain ⟨access, hdirectory⟩ := exists_directory_of_advance hf
  rwa [← advance_of_directory hdirectory ((h.directory names access).mp hdirectory)]

theorem SamePaths.walk_ok (h : SamePaths fs gs) (ps : List (List Char))
    (hf : ps.foldlM (fun names part => fs.advance names (String.ofList part)) names = .ok other) :
    ps.foldlM (fun names part => gs.advance names (String.ofList part)) names = .ok other := by
  induction ps generalizing names with
  | nil => exact hf
  | cons part ps ih =>
      rw [List.foldlM_cons] at hf ⊢
      cases hnext : fs.advance names (String.ofList part) with
      | error e => rw [hnext] at hf; exact nomatch hf
      | ok next =>
          rw [hnext] at hf
          rw [h.advance_ok hnext]
          exact ih hf

theorem SamePaths.resolve_ok (h : SamePaths fs gs) (hf : fs.resolve path = .ok names) :
    gs.resolve path = .ok names := by
  unfold resolve at hf ⊢
  split at hf
  · exact nomatch hf
  · split at hf
    · exact nomatch hf
    · rw [if_neg ‹_›, if_neg ‹_›, FileSystem.start, ← h.start]
      exact h.walk_ok _ hf

/-- A path leads to these names. There need not be a file yet. -/
def LeadsTo (fs : FileSystem) (path : String) (names : List String) : Prop :=
  fs.resolve path = .ok names

/-- **A path leads to the same names as long as paths stay.** -/
theorem SamePaths.leadsTo_iff (h : SamePaths fs gs) (path : String) (names : List String) :
    fs.LeadsTo path names ↔ gs.LeadsTo path names :=
  ⟨h.resolve_ok, h.symm.resolve_ok⟩

theorem LeadsTo.unique (h : fs.LeadsTo path names) (h' : fs.LeadsTo path other) : names = other :=
  Except.ok.inj (h.symm.trans h')

/-! ### Reading and writing -/

/-- A path is written to where it leads, if nothing there refuses it. -/
theorem target_eq_ok_iff : fs.target path = .ok names ↔ fs.LeadsTo path names ∧ fs.refusal? names = none := by
  unfold target LeadsTo
  cases fs.resolve path with
  | error e => simp [bind, Except.bind]
  | ok other =>
      cases hrefusal : fs.refusal? other with
      | none =>
          simp only [bind, Except.bind, hrefusal, pure, Except.pure, Except.ok.injEq]
          exact ⟨fun h => ⟨h, h ▸ hrefusal⟩, And.left⟩
      | some e =>
          simp only [bind, Except.bind, hrefusal, throw, throwThe, MonadExceptOf.throw, reduceCtorEq,
            Except.ok.injEq, false_iff, not_and]
          rintro rfl hnone
          exact nomatch hrefusal.symm.trans hnone

/-- What is read is in a file that a path leads to and that may be read. -/
theorem readFile_eq_ok_iff : fs.readFile path = .ok content ↔
    ∃ names access, fs.LeadsTo path names ∧ fs.lookup? names = some (.file content access) ∧
      access.reading = none := by
  unfold readFile LeadsTo
  cases fs.resolve path with
  | error e => simp [bind, Except.bind]
  | ok names =>
      rcases hl : fs.lookup? names with _ | ⟨bytes, access⟩ | access
      · simp [bind, Except.bind, hl, throw, throwThe, MonadExceptOf.throw]
      · cases hreading : access.reading with
        | none =>
            simp only [bind, Except.bind, hl, hreading, pure, Except.pure, Except.ok.injEq]
            constructor
            · rintro rfl
              exact ⟨names, access, rfl, hl, hreading⟩
            · rintro ⟨_, _, rfl, hfile, -⟩
              exact (Entry.file.inj (Option.some.inj (hl.symm.trans hfile))).1
        | some e =>
            simp only [bind, Except.bind, hl, hreading, throw, throwThe, MonadExceptOf.throw, reduceCtorEq,
              Except.ok.injEq, false_iff]
            rintro ⟨_, _, rfl, hfile, hnone⟩
            obtain ⟨-, rfl⟩ := Entry.file.inj (Option.some.inj (hl.symm.trans hfile))
            exact nomatch hreading.symm.trans hnone
      · simp [bind, Except.bind, hl, throw, throwThe, MonadExceptOf.throw]

/-- The same files are opened for writing as long as paths stay. -/
theorem SamePaths.target_eq_ok_iff (h : SamePaths fs gs) :
    fs.target path = .ok names ↔ gs.target path = .ok names := by
  rw [FileSystem.target_eq_ok_iff, FileSystem.target_eq_ok_iff, h.leadsTo_iff, h.writable]

/-! ### Different contents -/

/-- The same names are directories, the same names are files, and the same may be done with them. -/
structure SameKinds (fs gs : FileSystem) : Prop where
  start : fs.workingDirectory = gs.workingDirectory
  kind : ∀ names, (fs.lookup? names).map Entry.kind = (gs.lookup? names).map Entry.kind

/-- Entries of one kind are nothing, two files with one access, or two directories with one access. -/
theorem SameKinds.cases (h : SameKinds fs gs) (names : List String) :
    (fs.lookup? names = none ∧ gs.lookup? names = none) ∨
      (∃ content content' access, fs.lookup? names = some (.file content access) ∧
        gs.lookup? names = some (.file content' access)) ∨
      ∃ access, fs.lookup? names = some (.directory access) ∧ gs.lookup? names = some (.directory access) := by
  have hkind := h.kind names
  rcases hf : fs.lookup? names with _ | ⟨content, access⟩ | access <;>
    rcases hg : gs.lookup? names with _ | ⟨content', access'⟩ | access' <;>
    simp_all [Entry.kind]

theorem SameKinds.advance_eq (h : SameKinds fs gs) (names : List String) (part : String) :
    fs.advance names part = gs.advance names part := by
  rcases h.cases names with ⟨hf, hg⟩ | ⟨_, _, access, hf, hg⟩ | ⟨access, hf, hg⟩ <;>
    simp only [advance, hf, hg]

/-- What is in the files has no influence on where a path leads and why it leads nowhere. -/
theorem SameKinds.resolve_eq (h : SameKinds fs gs) (path : String) : fs.resolve path = gs.resolve path := by
  unfold resolve FileSystem.start
  simp only [h.advance_eq, h.start]

theorem SameKinds.refusalIn?_eq (h : SameKinds fs gs) (names : List String) :
    fs.refusalIn? names = gs.refusalIn? names := by
  rcases h.cases names with ⟨hf, hg⟩ | ⟨_, _, access, hf, hg⟩ | ⟨access, hf, hg⟩ <;>
    simp only [refusalIn?, hf, hg]

theorem SameKinds.refusal?_eq (h : SameKinds fs gs) (names : List String) :
    fs.refusal? names = gs.refusal? names := by
  rcases h.cases names with ⟨hf, hg⟩ | ⟨_, _, access, hf, hg⟩ | ⟨access, hf, hg⟩ <;>
    simp only [refusal?, hf, hg, h.refusalIn?_eq]

theorem SameKinds.accessOf_eq (h : SameKinds fs gs) (names : List String) :
    fs.accessOf names = gs.accessOf names := by
  rcases h.cases names with ⟨hf, hg⟩ | ⟨_, _, access, hf, hg⟩ | ⟨access, hf, hg⟩ <;>
    simp only [accessOf, hf, hg]

/-- What is in the files has no influence on which file is opened for writing either. -/
theorem SameKinds.target_eq (h : SameKinds fs gs) (path : String) : fs.target path = gs.target path := by
  unfold target
  simp only [h.resolve_eq, h.refusal?_eq]

end FileSystem

end InteropStubs
