import InteropStubs.Text.Position
import Mathlib.Data.List.TakeWhile
import Mathlib.Tactic.ByContra
import Mathlib.Tactic.SplitIfs

/-!
# Positions and the places they name

`Text.locate` computes a location from the text in front of a place. Read the other way round, a
location names its line and its place in it (`Text.locate_eq`), a later place has a later location
(`Text.locate_before`), and so a location is that of one place only (`Text.eq_of_locate_eq`).

A column can also be found by a search through what lies around a place, from the inside to the
outside, for something that spans the beginning of the line, where offsets are counted in bytes
(`Text.searchColumn`). `Text.searchColumn_eq` says that this makes no difference.
-/

namespace InteropStubs

/-- The order of locations: by line, then by column. -/
def Location.Before (a b : Location) : Prop :=
  a.line < b.line ∨ a.line = b.line ∧ a.column < b.column

theorem Location.Before.ne {a b : Location} (h : a.Before b) : a ≠ b := by
  rintro rfl
  rcases h with h | ⟨-, h⟩ <;> exact Int.lt_irrefl _ h

namespace Text

variable {cs lines stretch rest : List Char}

/-! ### Lines -/

theorem notMem_lastLine (cs : List Char) : '\n' ∉ lastLine cs := by
  intro h
  simpa using List.mem_takeWhile_imp (List.mem_reverse.mp h)

/-- A text is made of whole lines and of its last one. -/
theorem exists_lines (cs : List Char) :
    ∃ lines, cs = lines ++ lastLine cs ∧ (lines = [] ∨ ∃ more, lines = more ++ ['\n']) := by
  refine ⟨(cs.reverse.dropWhile (· != '\n')).reverse, ?_, ?_⟩
  · rw [lastLine, ← List.reverse_append, List.takeWhile_append_dropWhile, List.reverse_reverse]
  · cases h : cs.reverse.dropWhile (· != '\n') with
    | nil => exact .inl rfl
    | cons c more =>
        have hc : c = '\n' := by
          have hne : cs.reverse.dropWhile (· != '\n') ≠ [] := by simp [h]
          simpa [h] using List.head_dropWhile_not (· != '\n') hne
        exact .inr ⟨more.reverse, by simp [hc]⟩

theorem lastLine_eq (hlines : lines = [] ∨ ∃ more, lines = more ++ ['\n'])
    (hstretch : '\n' ∉ stretch) : lastLine (lines ++ stretch) = stretch := by
  have hall : ∀ c ∈ stretch.reverse, (c != '\n') = true := fun c hc =>
    bne_iff_ne.mpr fun h => hstretch (h ▸ List.mem_reverse.mp hc)
  rw [lastLine, List.reverse_append, List.takeWhile_append_of_pos hall, List.reverse_append,
    List.reverse_reverse]
  rcases hlines with rfl | ⟨more, rfl⟩ <;> simp

/-! ### Bytes -/

@[simp] theorem utf8Length_append (cs ds : List Char) :
    utf8Length (cs ++ ds) = utf8Length cs + utf8Length ds := by
  induction cs with
  | nil => simp [utf8Length]
  | cons c cs ih => simp [utf8Length, ih, Nat.add_assoc]

theorem utf8Length_eq_zero_iff : utf8Length cs = 0 ↔ cs = [] := by
  cases cs with
  | nil => simp [utf8Length]
  | cons c cs =>
      have := c.utf8Size_pos
      simp [utf8Length]
      omega

/-- The bytes in front of a place tell its order. -/
theorem utf8Length_take_le_iff {a b : Nat} (ha : a ≤ cs.length) (hb : b ≤ cs.length) :
    utf8Length (cs.take a) ≤ utf8Length (cs.take b) ↔ a ≤ b := by
  have hle {a b : Nat} (h : a ≤ b) :
      utf8Length (cs.take b) = utf8Length (cs.take a) + utf8Length ((cs.drop a).take (b - a)) := by
    rw [← utf8Length_append, ← List.take_add, Nat.add_sub_cancel' h]
  constructor
  · intro h
    by_contra hlt
    have heq := hle (Nat.le_of_lt (Nat.lt_of_not_le hlt))
    have hzero : (cs.drop b).take (a - b) = [] := utf8Length_eq_zero_iff.mp (by omega)
    have := congrArg List.length hzero
    simp at this
    omega
  · intro h
    rw [hle h]
    exact Nat.le_add_right _ _

/-! ### Locations -/

/-- What a place is located by: the whole lines in front of it, and the stretch of its own line. -/
theorem locate_eq (hlines : lines = [] ∨ ∃ more, lines = more ++ ['\n']) (hstretch : '\n' ∉ stretch)
    {offset : Nat} (hoffset : cs.take offset = lines ++ stretch) :
    locate cs offset = ⟨1 + lines.count '\n',
      if lines.length < firstTokenOffset cs then utf8Length stretch else stretch.length⟩ := by
  have hcount : stretch.count '\n' = 0 := List.count_eq_zero.mpr hstretch
  simp [locate, hoffset, lastLine_eq hlines hstretch, hcount]

/-- Every place has lines in front of it and a stretch of its own line. -/
theorem exists_stretch (cs : List Char) (offset : Nat) :
    ∃ lines stretch, cs.take offset = lines ++ stretch ∧
      (lines = [] ∨ ∃ more, lines = more ++ ['\n']) ∧ '\n' ∉ stretch := by
  obtain ⟨lines, hlines, hend⟩ := exists_lines (cs.take offset)
  exact ⟨lines, _, hlines, hend, notMem_lastLine _⟩

/-- **A later place has a later location.** -/
theorem locate_before {a b : Nat} (hab : a < b) (hb : b ≤ cs.length) :
    (locate cs a).Before (locate cs b) := by
  obtain ⟨lines, stretch, ha, hlines, hstretch⟩ := exists_stretch cs a
  let between := (cs.drop a).take (b - a)
  have htake : cs.take b = lines ++ (stretch ++ between) := by
    rw [← List.append_assoc, ← ha, ← List.take_add, Nat.add_sub_cancel' (Nat.le_of_lt hab)]
  have hne : between ≠ [] := by
    rw [← List.length_pos_iff]
    simp [between]
    omega
  by_cases hbreak : '\n' ∈ between
  · -- a line break between the two
    left
    have hcount : 0 < between.count '\n' := List.count_pos_iff.mpr hbreak
    simp only [locate, ha, htake, List.count_append]
    omega
  · -- both in one line
    right
    rw [locate_eq hlines hstretch ha,
      locate_eq hlines (by simp [hstretch, hbreak]) htake]
    refine ⟨rfl, ?_⟩
    have hlength : 0 < between.length := List.length_pos_iff.mpr hne
    have hbytes : utf8Length between ≠ 0 := fun h => hne (utf8Length_eq_zero_iff.mp h)
    dsimp only
    split <;> simp <;> omega

/-- **No two places share a location.** -/
theorem eq_of_locate_eq {a b : Nat} (ha : a ≤ cs.length) (hb : b ≤ cs.length)
    (h : locate cs a = locate cs b) : a = b := by
  rcases Nat.lt_trichotomy a b with hlt | heq | hlt
  · exact absurd h (locate_before hlt hb).ne
  · exact heq
  · exact absurd h.symm (locate_before hlt ha).ne

/-- The first token of a text stands on the line of a place behind it, but not at its beginning, just
if the line begins before the token. -/
theorem first_in_line_iff (hlines : lines = [] ∨ ∃ more, lines = more ++ ['\n'])
    (hstretch : '\n' ∉ stretch) {offset : Nat} (hoffset : cs.take offset = lines ++ stretch)
    (hfirst : firstTokenOffset cs ≤ offset) :
    (locate cs (firstTokenOffset cs)).line = (locate cs offset).line ∧
        (locate cs (firstTokenOffset cs)).column ≠ 0 ↔
      lines.length < firstTokenOffset cs := by
  have htake : cs.take (firstTokenOffset cs) = (lines ++ stretch).take (firstTokenOffset cs) := by
    rw [← hoffset, List.take_take, Nat.min_eq_left hfirst]
  have hlength : firstTokenOffset cs ≤ (lines ++ stretch).length := by
    rw [← hoffset, List.length_take, Nat.le_min]
    exact ⟨hfirst, (List.takeWhile_prefix _).length_le⟩
  by_cases hlt : lines.length < firstTokenOffset cs
  · -- the line begins before the token: the token has a stretch of the same line before it
    simp only [hlt, iff_true]
    rw [List.take_append, List.take_of_length_le (Nat.le_of_lt hlt)] at htake
    have hstretch' : '\n' ∉ stretch.take (firstTokenOffset cs - lines.length) :=
      fun h => hstretch (List.mem_of_mem_take h)
    have hbytes : utf8Length (stretch.take (firstTokenOffset cs - lines.length)) ≠ 0 := by
      rw [Ne, utf8Length_eq_zero_iff, ← List.length_eq_zero_iff, List.length_take]
      rw [List.length_append] at hlength
      omega
    rw [locate_eq hlines hstretch' htake, locate_eq hlines hstretch hoffset, if_pos hlt]
    exact ⟨rfl, by simpa using hbytes⟩
  · simp only [hlt, iff_false, not_and, not_not]
    intro hline
    rw [List.take_append_of_le_length (Nat.le_of_not_lt hlt)] at htake
    -- with all lines in front of it, the token is where the line begins
    have hall : lines.length ≤ firstTokenOffset cs := by
      rcases hlines with rfl | ⟨more, rfl⟩
      · exact Nat.zero_le _
      · by_contra hle
        have hmore : firstTokenOffset cs ≤ more.length := by
          rw [List.length_append, List.length_singleton] at hle
          omega
        rw [List.take_append_of_le_length hmore] at htake
        have hcount := (List.take_sublist (firstTokenOffset cs) more).count_le '\n'
        have hzero : stretch.count '\n' = 0 := List.count_eq_zero.mpr hstretch
        simp [locate, hoffset, htake, hzero] at hline
        omega
    rw [List.take_of_length_le hall] at htake
    rw [← List.append_nil lines] at htake
    rw [locate_eq hlines List.not_mem_nil htake]
    simp [utf8Length]

/-! ### Searching the beginning of a line -/

/-- The characters behind some bytes of a text. -/
def dropBytes : Nat → List Char → List Char
  | 0, cs => cs
  | _, [] => []
  | bytes, c :: cs => dropBytes (bytes - c.utf8Size) cs

/-- The characters in some bytes at the beginning of a text. -/
def takeBytes : Nat → List Char → List Char
  | 0, _ => []
  | _, [] => []
  | bytes, c :: cs => c :: takeBytes (bytes - c.utf8Size) cs

theorem dropBytes_append (cs ds : List Char) : dropBytes (utf8Length cs) (cs ++ ds) = ds := by
  induction cs with
  | nil => cases ds <;> rfl
  | cons c cs ih =>
      have := c.utf8Size_pos
      rw [List.cons_append, dropBytes.eq_3 _ _ _ (by simp [utf8Length]; omega), utf8Length,
        Nat.add_sub_cancel_left, ih]

theorem takeBytes_append (cs ds : List Char) : takeBytes (utf8Length cs) (cs ++ ds) = cs := by
  induction cs with
  | nil => cases ds <;> rfl
  | cons c cs ih =>
      have := c.utf8Size_pos
      rw [List.cons_append, takeBytes.eq_3 _ _ _ (by simp [utf8Length]; omega), utf8Length,
        Nat.add_sub_cancel_left, ih]

/-- The column of a place as it is searched for among the stretches of text around it, the innermost
first, each given by where it starts. In the first one that starts no later than the line does, the
bytes from the beginning of the line to the place are decoded and counted as characters. If there is
none, they are counted as bytes. -/
def searchColumn (cs : List Char) (offset : Nat) : (around : List Nat) → Nat
  | [] => utf8Length (lastLine (cs.take offset))
  | start :: around =>
    let place := utf8Length (cs.take offset)
    let lineStart := place - utf8Length (lastLine (cs.take offset))
    let origin := utf8Length (cs.take start)
    if lineStart < origin then searchColumn cs offset around
    else (takeBytes (place - lineStart) (dropBytes (lineStart - origin) (cs.drop start))).length

/-- What one stretch around a place says: if it starts no later than the line, it gives the characters of the line in
front of the place. -/
theorem searchColumn_cons {offset start : Nat} (hlines : lines = [] ∨ ∃ more, lines = more ++ ['\n'])
    (hstretch : '\n' ∉ stretch) (htake : cs.take offset = lines ++ stretch) (hstart : start ≤ cs.length)
    (around : List Nat) :
    searchColumn cs offset (start :: around) =
      if lines.length < start then searchColumn cs offset around else stretch.length := by
  have hcs : cs = lines ++ (stretch ++ cs.drop offset) := by
    rw [← List.append_assoc, ← htake, List.take_append_drop]
  have hlength : lines.length ≤ cs.length := by
    rw [hcs, List.length_append]
    exact Nat.le_add_right _ _
  have horigin : utf8Length lines < utf8Length (cs.take start) ↔ lines.length < start := by
    have hle := utf8Length_take_le_iff hstart hlength
    have hlead : cs.take lines.length = lines := by
      rw [hcs, List.take_left]
    rw [hlead] at hle
    rw [← Nat.not_le, ← Nat.not_le, not_iff_not]
    exact hle
  simp only [searchColumn, htake, lastLine_eq hlines hstretch, utf8Length_append, Nat.add_sub_cancel,
    Nat.add_sub_cancel_left, horigin]
  split_ifs with hlt
  · rfl
  have hge := Nat.le_of_not_lt hlt
  have hinner : cs.drop start = lines.drop start ++ (stretch ++ cs.drop offset) := by
    rw [← List.drop_append_of_le_length hge, ← hcs]
  have hbytes : utf8Length lines - utf8Length (cs.take start) = utf8Length (lines.drop start) := by
    have htakes : cs.take start = lines.take start := by
      rw [hcs, List.take_append_of_le_length hge]
    have hsum := utf8Length_append (lines.take start) (lines.drop start)
    rw [List.take_append_drop] at hsum
    rw [htakes, hsum, Nat.add_sub_cancel_left]
  rw [hbytes, hinner, dropBytes_append, takeBytes_append]

/-- **The search finds the column**, whatever stands around a place, if all of it starts between the
first token and the place, and the first token is where the outermost starts. -/
theorem searchColumn_eq {offset : Nat} (hoffset : offset ≤ cs.length)
    (hfirst : firstTokenOffset cs ≤ offset) {around : List Nat}
    (haround : ∀ start ∈ around, firstTokenOffset cs ≤ start ∧ start ≤ offset) :
    (searchColumn cs offset (around ++ [firstTokenOffset cs]) : Int) = (locate cs offset).column := by
  obtain ⟨lines, stretch, htake, hlines, hstretch⟩ := exists_stretch cs offset
  rw [locate_eq hlines hstretch htake]
  induction around with
  | nil =>
      rw [List.nil_append, searchColumn_cons hlines hstretch htake (hfirst.trans hoffset)]
      split
      · simp [searchColumn, htake, lastLine_eq hlines hstretch]
      · rfl
  | cons start around ih =>
      have ⟨hge, hle⟩ := haround start List.mem_cons_self
      rw [List.cons_append, searchColumn_cons hlines hstretch htake (hle.trans hoffset)]
      split
      · exact ih fun s hs => haround s (List.mem_cons_of_mem _ hs)
      · rw [if_neg (by omega)]

end Text

end InteropStubs
