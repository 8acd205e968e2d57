import Mathlib.Data.List.TakeWhile
import InteropStubs.OutputPath
import InteropStubs.Proofs.Batch.Path

/-!
# Where outputs go

The output of a file lies in the directory of the file, under a name that tells the name of the file
(`OutputPath.baseOf_injective`). So files whose outputs are one file are one file, however their
paths are spelled (`FileSystem.LeadsTo.of_output`).
-/

namespace InteropStubs

namespace OutputPath

/-! ### Cuts at a last character -/

/-- What stands behind the last `c`, and what stands in front of that. -/
theorem exists_last {c : Char} {cs : List Char} (h : c ∈ cs) :
    ∃ before after, cs = before ++ c :: after ∧ c ∉ after ∧
      cs.reverse.takeWhile (· != c) = after.reverse ∧
      cs.reverse.dropWhile (· != c) = c :: before.reverse := by
  obtain ⟨after, before, hcut, hafter⟩ := List.eq_append_cons_of_mem (List.mem_reverse.mpr h)
  have hall : ∀ a ∈ after, (a != c) = true := fun a ha => by
    simpa using fun hac : a = c => hafter (hac ▸ ha)
  refine ⟨before.reverse, after.reverse, ?_, by simpa using hafter, ?_, ?_⟩
  · rw [← List.reverse_reverse cs, hcut]
    simp
  · rw [hcut, List.takeWhile_append_of_pos hall]
    simp
  · rw [hcut, List.dropWhile_append_of_pos hall]
    simp

/-- A text is cut at its last `c` in one way. -/
theorem eq_of_last {c : Char} {before before' after after' : List Char}
    (h : before ++ c :: after = before' ++ c :: after') (hafter : c ∉ after)
    (hafter' : c ∉ after') : before = before' ∧ after = after' := by
  rcases List.append_eq_append_iff.mp h with ⟨more, hbefore, htail⟩ | ⟨more, hbefore, htail⟩ <;>
    cases more with
    | nil => simp_all
    | cons d more => simp_all

/-- A path is a directory part, which is empty or ends with a slash, and a base name without one. -/
theorem splitBase_spec (path : List Char) :
    path = (splitBase path).1 ++ (splitBase path).2 ∧ '/' ∉ (splitBase path).2 ∧
      ((splitBase path).1 = [] ∨ ∃ directory, (splitBase path).1 = directory ++ ['/']) := by
  by_cases h : '/' ∈ path
  · obtain ⟨before, after, hpath, hafter, htake, hdrop⟩ := exists_last h
    simp only [splitBase, htake, hdrop, List.reverse_reverse, List.reverse_cons]
    exact ⟨by simpa using hpath, hafter, .inr ⟨before, rfl⟩⟩
  · have hall : ∀ a ∈ path.reverse, (a != '/') = true := fun a ha => by
      simpa using fun hslash : a = '/' => h (hslash ▸ List.mem_reverse.mp ha)
    have htake : path.reverse.takeWhile (· != '/') = path.reverse := List.takeWhile_eq_self_iff.mpr hall
    have hdrop : path.reverse.dropWhile (· != '/') = [] := List.dropWhile_eq_nil_iff.mpr hall
    simp [splitBase, htake, hdrop, h]

/-! ### Base names -/

/-- The base name of the output of a file. -/
def baseOf (base : List Char) : List Char :=
  (splitExtension base).1 ++ mark ++ (splitExtension base).2

theorem ofChars_eq (path : List Char) :
    ofChars path = (splitBase path).1 ++ baseOf (splitBase path).2 := by
  simp [ofChars, baseOf]

/-- The base name of an output, in front of its last point and behind it: the mark is either at the
end or in front of the extension. -/
inductive Marked : (base before after : List Char) → Prop where
  /-- There is no extension: no point, or nothing but points in front of the last one. -/
  | plain {base : List Char} (h : ∀ stem extension, base = stem ++ '.' :: extension →
      '.' ∉ extension → stem.all (· == '.') = true) : Marked base base ['g']
  | extended {stem extension : List Char} (hext : '.' ∉ extension)
      (hstem : stem.all (· == '.') = false) :
      Marked (stem ++ '.' :: extension) (stem ++ mark) extension

theorem exists_marked (base : List Char) :
    ∃ before after, Marked base before after ∧ baseOf base = before ++ '.' :: after := by
  by_cases h : '.' ∈ base
  · obtain ⟨stem, extension, hbase, hext, htake, hdrop⟩ := exists_last h
    have hcut : splitLastPoint base = (stem, '.' :: extension) := by
      simp [splitLastPoint, h, htake, hdrop]
    cases hstem : stem.all (· == '.') with
    | true =>
        refine ⟨_, _, .plain fun stem' extension' h' hext' => ?_, by
          simp [baseOf, splitExtension, hcut, hstem, mark]⟩
        obtain ⟨rfl, rfl⟩ := eq_of_last (hbase.symm.trans h') hext hext'
        exact hstem
    | false =>
        refine ⟨stem ++ mark, extension, ?_, by simp [baseOf, splitExtension, hcut, hstem]⟩
        rw [hbase]
        exact .extended hext hstem
  · refine ⟨_, _, .plain fun stem extension hbase _ => ?_, ?_⟩
    · simp [hbase] at h
    · simp [baseOf, splitExtension, splitLastPoint, h, mark]

theorem Marked.point_notMem {base before after : List Char} (h : Marked base before after) :
    '.' ∉ after := by
  cases h with
  | plain h => decide
  | extended hext hstem => exact hext

/-- The two places of the mark are told apart: what stands in front of an extension is more than
points. -/
theorem Marked.unique {base base' before after : List Char} (h : Marked base before after)
    (h' : Marked base' before after) : base = base' := by
  cases h with
  | plain hplain =>
      generalize hafter : ['g'] = after at h'
      cases h' with
      | plain => rfl
      | @extended stem extension hext hstem =>
          have := hplain stem ['g'] rfl (by decide)
          simp [hstem] at this
  | @extended stem extension hext hstem =>
      generalize hbefore : stem ++ mark = before at h'
      cases h' with
      | plain hplain =>
          have := hplain stem ['g'] hbefore.symm (by decide)
          simp [hstem] at this
      | extended => rw [List.append_cancel_right hbefore]

/-- **The name of an output tells the name of its file.** -/
theorem baseOf_injective {base base' : List Char} (h : baseOf base = baseOf base') :
    base = base' := by
  obtain ⟨before, after, hmarked, hcut⟩ := exists_marked base
  obtain ⟨before', after', hmarked', hcut'⟩ := exists_marked base'
  obtain ⟨rfl, rfl⟩ := eq_of_last (hcut.symm.trans (h.trans hcut')) hmarked.point_notMem
    hmarked'.point_notMem
  exact hmarked.unique hmarked'

theorem g_mem_baseOf (base : List Char) : 'g' ∈ baseOf base := by
  simp [baseOf, mark]

theorem slash_notMem_baseOf {base : List Char} (h : '/' ∉ base) : '/' ∉ baseOf base := by
  obtain ⟨before, after, hmarked, hcut⟩ := exists_marked base
  rw [hcut]
  cases hmarked with
  | plain => simp [h]
  | extended hext hstem =>
      simp only [List.mem_append, List.mem_cons, not_or] at h ⊢
      exact ⟨⟨h.1, by decide⟩, by decide, h.2.2⟩

end OutputPath

namespace FileSystem

open OutputPath

variable {fs : FileSystem}

/-! ### Files and their outputs -/

theorem parts_of_notMem {part : List Char} (h : '/' ∉ part) : parts part = [part] := by
  induction part with
  | nil => rfl
  | cons c part ih =>
      simp only [List.mem_cons, not_or] at h
      simp [parts, Ne.symm h.1, ih h.2]

theorem parts_ne_nil (path : List Char) : parts path ≠ [] := by
  cases path with
  | nil => simp [parts]
  | cons c path =>
      simp only [parts]
      split
      · simp
      · split <;> simp

theorem parts_append_slash (directory rest : List Char) :
    parts (directory ++ '/' :: rest) = parts directory ++ parts rest := by
  induction directory with
  | nil => simp [parts]
  | cons c directory ih =>
      by_cases hc : c = '/'
      · simp [parts, hc, ih]
      · cases hparts : parts directory with
        | nil => exact absurd hparts (parts_ne_nil directory)
        | cons p ps => simp [parts, hc, ih, hparts]

/-- Paths with one directory part lead to one directory first, and from there the base name leads on. -/
theorem resolve_ok_base (fs : FileSystem) {directory : List Char}
    (hdirectory : directory = [] ∨ ∃ d, directory = d ++ ['/']) :
    ∃ walk : Except FileError (List String), ∀ path base names, path.toList = directory ++ base →
      '/' ∉ base → fs.LeadsTo path names →
        ∃ above, walk = .ok above ∧ fs.advance above (String.ofList base) = .ok names := by
  let follow := fun names part => fs.advance names (String.ofList part)
  let ps := if directory = [] then [] else parts directory.dropLast
  refine ⟨ps.foldlM follow (fs.start directory), fun path base names hpath hbase hleads => ?_⟩
  have hparts : parts path.toList = ps ++ [base] := by
    rcases hdirectory with rfl | ⟨d, rfl⟩
    · simp [hpath, parts_of_notMem hbase, ps]
    · simp [hpath, parts_append_slash, parts_of_notMem hbase, ps]
  have hstart : fs.start path.toList = fs.start directory := by
    rcases hdirectory with rfl | ⟨d, rfl⟩
    · -- a base name does not begin with a slash
      cases base with
      | nil => rw [hpath, List.append_nil]
      | cons c base =>
          have hc : c ≠ '/' := fun heq => hbase (heq ▸ List.mem_cons_self)
          simp [hpath, start, hc]
    · simp [hpath, start, List.head?_append]
  unfold LeadsTo resolve at hleads
  split at hleads
  · cases hleads
  split at hleads
  · cases hleads
  simp only [hstart, hparts, List.foldlM_append, List.foldlM_cons, List.foldlM_nil] at hleads
  cases hwalk : ps.foldlM follow (fs.start directory) with
  | error e => simp [follow, hwalk, bind, Except.bind] at hleads
  | ok above =>
      refine ⟨above, rfl, ?_⟩
      simp only [follow] at hwalk
      simp only [hwalk] at hleads
      change (fs.advance above (String.ofList base) >>= pure) = _ at hleads
      rwa [bind_pure] at hleads

/-- An output is right below the directory that its directory part leads to. -/
theorem advance_baseOf {base : List Char} {above names : List String}
    (h : fs.advance above (String.ofList (baseOf base)) = .ok names) :
    names = above ++ [String.ofList (baseOf base)] := by
  -- the base name of an output is none of the names that lead elsewhere
  have hne : ∀ special : List Char, 'g' ∉ special → String.ofList (baseOf base) ≠ String.ofList special :=
    fun special hspecial heq => hspecial (String.ofList_injective heq ▸ g_mem_baseOf base)
  have hempty := hne [] (by decide)
  have hpoint := hne ['.'] (by decide)
  have hpoints := hne ['.', '.'] (by decide)
  unfold advance at h
  split at h
  · exact nomatch h
  · exact nomatch h
  rw [if_neg hempty] at h
  split at h
  · exact nomatch h
  rw [if_neg hpoint, if_neg hpoints] at h
  split at h
  · exact nomatch h
  · exact (Except.ok.inj h).symm

/-- A path and the path of its output lead to the same directory, and on to the two files. -/
theorem LeadsTo.directory {path : String} {names output : List String}
    (hnames : fs.LeadsTo path names) (houtput : fs.LeadsTo (outputPath path) output) :
    ∃ above base, output = above ++ [String.ofList (baseOf base)] ∧
      fs.advance above (String.ofList base) = .ok names := by
  obtain ⟨hpath, hbase, hdirectory⟩ := splitBase_spec path.toList
  obtain ⟨walk, hwalk⟩ := resolve_ok_base fs hdirectory
  obtain ⟨above, habove, hon⟩ := hwalk path _ _ hpath hbase hnames
  obtain ⟨above', habove', hon'⟩ := hwalk (outputPath path) _ _
    (by simp [outputPath, ofChars_eq]) (slash_notMem_baseOf hbase) houtput
  obtain rfl : above = above' := Except.ok.inj (habove.symm.trans habove')
  exact ⟨above, _, advance_baseOf hon', hon⟩

/-- **Files whose outputs are one file are one file.** -/
theorem LeadsTo.of_output {path path' : String} {names names' output : List String}
    (hnames : fs.LeadsTo path names) (hnames' : fs.LeadsTo path' names')
    (houtput : fs.LeadsTo (outputPath path) output)
    (houtput' : fs.LeadsTo (outputPath path') output) : names = names' := by
  obtain ⟨above, base, rfl, hon⟩ := hnames.directory houtput
  obtain ⟨above', base', heq, hon'⟩ := hnames'.directory houtput'
  obtain ⟨rfl, hlast⟩ := List.append_inj' heq rfl
  obtain rfl := baseOf_injective (String.ofList_injective (List.singleton_inj.mp hlast))
  exact Except.ok.inj (hon.symm.trans hon')

end FileSystem

end InteropStubs
