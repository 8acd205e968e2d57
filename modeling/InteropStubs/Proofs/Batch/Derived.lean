import InteropStubs.Proofs.Batch.Output

/-!
# Derived paths

The path of an output is the path of its file with the mark of generated files put in at one place
(`OutputPath.Joint`): in front of the extension, if the base name has one, and else at the end. An extension
stays the extension, so the mark goes to the same place again when a path is derived from a derived path, and
a path can be told from what is derived from it (`outputPath_inserts`).
-/

namespace InteropStubs

namespace OutputPath

/-- The extension of a path, with its point. -/
def extensionOf (path : List Char) : List Char :=
  (splitExtension (splitBase path).2).2

/-! ### Where the mark goes -/

/-- The place of the mark in a base name: in front of the last point, if something other than points stands in
front of that one, and else at the end. -/
inductive Place : (front behind : List Char) → Prop where
  | point {stem extension : List Char} (hext : '.' ∉ extension) (hstem : ∃ c ∈ stem, c ≠ '.') :
      Place stem ('.' :: extension)
  | last {base : List Char} (h : ∀ stem extension, base = stem ++ '.' :: extension → '.' ∉ extension →
      ∀ c ∈ stem, c = '.') : Place base []

/-- A path taken apart at the place of the mark: what ends with the last slash, and the base name in front of the
place and behind it. -/
structure Joint (path directory front behind : List Char) : Prop where
  path_eq : path = directory ++ (front ++ behind)
  directory_ends : directory = [] ∨ ∃ above, directory = above ++ ['/']
  slash_notMem : '/' ∉ front ++ behind
  place : Place front behind

theorem splitLastPoint_eq {stem extension : List Char} (hext : '.' ∉ extension) :
    splitLastPoint (stem ++ '.' :: extension) = (stem, '.' :: extension) := by
  have hmem : '.' ∈ stem ++ '.' :: extension := by simp
  obtain ⟨before, after, hbase, hafter, htake, hdrop⟩ := exists_last hmem
  obtain ⟨rfl, rfl⟩ := eq_of_last hbase hext hafter
  rw [splitLastPoint, if_pos (by simp)]
  simp only [htake, hdrop, List.tail_cons, List.reverse_reverse]

/-- The place of the mark is where the extension begins. -/
theorem Place.splitExtension_eq {front behind : List Char} (h : Place front behind) :
    splitExtension (front ++ behind) = (front, behind) := by
  cases h with
  | point hext hstem => simp [splitExtension, splitLastPoint_eq hext, hstem]
  | last hlast =>
      rw [List.append_nil]
      by_cases hpoint : '.' ∈ front
      · obtain ⟨stem, extension, hbase, hext, -, -⟩ := exists_last hpoint
        have hstem : stem.all (· == '.') = true := by simpa using hlast stem extension hbase hext
        rw [hbase, splitExtension, splitLastPoint_eq hext]
        simp [hstem]
      · simp [splitExtension, splitLastPoint, hpoint]

theorem exists_place (base : List Char) : ∃ front behind, base = front ++ behind ∧ Place front behind := by
  by_cases h : ∃ stem extension, base = stem ++ '.' :: extension ∧ '.' ∉ extension ∧ ∃ c ∈ stem, c ≠ '.'
  · obtain ⟨stem, extension, hbase, hext, hstem⟩ := h
    exact ⟨stem, '.' :: extension, hbase, .point hext hstem⟩
  · refine ⟨base, [], by simp, .last fun stem extension hbase hext => ?_⟩
    by_contra hstem
    exact h ⟨stem, extension, hbase, hext, by simpa using hstem⟩

/-- Behind a mark that stands in front of an extension there is room for another mark. -/
theorem Place.marked {front behind : List Char} (h : Place front behind) (hbehind : behind ≠ []) :
    Place (front ++ mark) behind := by
  cases h with
  | point hext hstem =>
      obtain ⟨c, hc, hne⟩ := hstem
      exact .point hext ⟨c, List.mem_append_left _ hc, hne⟩
  | last => exact absurd rfl hbehind

/-! ### Paths taken apart -/

/-- A path is cut into directory part and base name in one way. -/
theorem splitBase_append {directory base : List Char}
    (hdirectory : directory = [] ∨ ∃ above, directory = above ++ ['/']) (hbase : '/' ∉ base) :
    splitBase (directory ++ base) = (directory, base) := by
  obtain ⟨hpath, hslash, hends⟩ := splitBase_spec (directory ++ base)
  generalize splitBase (directory ++ base) = cut at hpath hslash hends
  obtain ⟨front, rest⟩ := cut
  dsimp only at hpath hslash hends
  rcases hdirectory with rfl | ⟨above, rfl⟩ <;> rcases hends with rfl | ⟨above', rfl⟩
  · simpa using hpath.symm
  · exact absurd (by simp_all) hbase
  · obtain rfl : above ++ ['/'] ++ base = rest := hpath
    exact absurd (by simp) hslash
  · obtain ⟨rfl, rfl⟩ := eq_of_last (by simpa using hpath) hbase hslash
    rfl

theorem exists_joint (path : List Char) : ∃ directory front behind, Joint path directory front behind := by
  obtain ⟨hpath, hslash, hends⟩ := splitBase_spec path
  obtain ⟨front, behind, hbase, hplace⟩ := exists_place (splitBase path).2
  exact ⟨_, front, behind, hbase ▸ hpath, hends, hbase ▸ hslash, hplace⟩

namespace Joint

variable {path directory front behind : List Char}

theorem splitBase_eq (h : Joint path directory front behind) : splitBase path = (directory, front ++ behind) :=
  h.path_eq ▸ splitBase_append h.directory_ends h.slash_notMem

theorem extensionOf_eq (h : Joint path directory front behind) : extensionOf path = behind := by
  rw [extensionOf, h.splitBase_eq, h.place.splitExtension_eq]

/-- **The mark is put in at its place**, and nothing else changes. -/
theorem ofChars_eq (h : Joint path directory front behind) :
    ofChars path = directory ++ (front ++ mark ++ behind) := by
  simp [ofChars, h.splitBase_eq, h.place.splitExtension_eq]

/-- In front of an extension the mark leaves its place where it was. -/
theorem derived (h : Joint path directory front behind) (hbehind : behind ≠ []) :
    Joint (ofChars path) directory (front ++ mark) behind where
  path_eq := h.ofChars_eq
  directory_ends := h.directory_ends
  slash_notMem := by
    have hslash := h.slash_notMem
    simp only [List.mem_append, not_or] at hslash ⊢
    exact ⟨⟨hslash.1, by decide⟩, hslash.2⟩
  place := h.place.marked hbehind

end Joint

/-- **Outputs tell their files apart.** -/
theorem ofChars_injective : Function.Injective ofChars := by
  intro path path' h
  obtain ⟨hpath, hslash, hends⟩ := splitBase_spec path
  obtain ⟨hpath', hslash', hends'⟩ := splitBase_spec path'
  rw [OutputPath.ofChars_eq, OutputPath.ofChars_eq] at h
  have hcut := congrArg splitBase h
  rw [splitBase_append hends (slash_notMem_baseOf hslash),
    splitBase_append hends' (slash_notMem_baseOf hslash')] at hcut
  obtain ⟨hdirectory, hbase⟩ := Prod.mk.inj hcut
  rw [hpath, hpath', hdirectory, baseOf_injective hbase]

end OutputPath

open OutputPath in
/-- **Derived paths never collide.** No two paths have one output, and no path is its own output. The output is the
path with the mark at its one place behind the last slash: in front of the last point of the base name, if something
other than points stands in front of that one, and else at the end. If there is an extension, the output has it too,
and what is derived from the output has two marks in a row. -/
theorem outputPath_inserts (p q : String) :
    (outputPath p = outputPath q → p = q) ∧ outputPath p ≠ p ∧
      ∃ directory front behind, Joint p.toList directory front behind ∧
        (outputPath p).toList = directory ++ (front ++ mark ++ behind) ∧
        extensionOf p.toList = behind ∧
        (extensionOf p.toList ≠ [] →
          extensionOf (outputPath p).toList = extensionOf p.toList ∧
            (outputPath (outputPath p)).toList = directory ++ (front ++ mark ++ mark ++ behind)) := by
  obtain ⟨directory, front, behind, hjoint⟩ := exists_joint p.toList
  have hchars : (outputPath p).toList = ofChars p.toList := by simp [outputPath]
  have hmarked := hjoint.ofChars_eq
  refine ⟨fun h => ?_, fun h => ?_, directory, front, behind, hjoint, hchars.trans hmarked,
    hjoint.extensionOf_eq, fun hext => ?_⟩
  · exact String.toList_injective (ofChars_injective (String.ofList_injective h))
  · -- the output is longer by the mark
    have hlength := congrArg (List.length ∘ String.toList) h
    rw [Function.comp_apply, Function.comp_apply, hchars, hmarked, hjoint.path_eq] at hlength
    simp only [mark, List.length_append, List.length_cons, List.length_nil] at hlength
    omega
  · rw [hjoint.extensionOf_eq] at hext ⊢
    have hagain := hjoint.derived hext
    rw [hchars]
    exact ⟨hagain.extensionOf_eq, by simp [outputPath, hagain.ofChars_eq]⟩

/-- Points in front, a mark in the name, a point at the end, and points in the directory. -/
example : ["a.b/..c", "A.g.cs", "x.", "..."].map outputPath = ["a.b/..c.g", "A.g.g.cs", "x.g.", "....g"] := by
  decide +kernel

end InteropStubs
