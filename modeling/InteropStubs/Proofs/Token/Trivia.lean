import InteropStubs.Proofs.Token.Seam
import Mathlib.Data.List.TakeWhile

/-!
# Trivia

A text that stands between tokens and is no part of any is passed over, whatever follows it
(`Token.Skips`). So it is with blanks, comments and directives that are put there (`Token.Trivia.skips`), and with
what stands in front of the tokens of a text (`Token.exists_gap`).
-/

namespace InteropStubs

open Text Scan

namespace Directive

variable {cs : List Char} {d : Directive} {k m b : Nat} {g : Gap}

/-- The last of the first `k` characters is a line break. -/
def EndsLine (k : Nat) (cs : List Char) : Prop :=
  ∃ line rest, cs = line ++ '\n' :: rest ∧ k = line.length + 1

/-- What ends a line behind some characters ends it with them. -/
theorem EndsLine.of_drop (h : EndsLine k (cs.drop m)) : EndsLine (m + k) cs := by
  obtain ⟨line, rest, hcs, rfl⟩ := h
  refine ⟨cs.take m ++ line, rest, by rw [List.append_assoc, ← hcs, List.take_append_drop], ?_⟩
  have hlong : 0 < (cs.drop m).length := by
    rw [hcs, List.length_append, List.length_cons]
    omega
  rw [List.length_drop] at hlong
  rw [List.length_append, List.length_take]
  omega

/-- A directive ends its line where it is complete. -/
theorem endsLine_of_ending? {read : List Argument} (h : ending? d read b cs = some (g, true)) :
    EndsLine g.size cs := by
  induction b generalizing cs read g with
  | zero => exact absurd h nofun
  | succ b ih =>
      obtain ⟨c, rest, hdrop, -, hcases⟩ := ending?_cases h
      have hsucc {k : Nat} (hk : EndsLine k (c :: rest)) : EndsLine ((gapInLine cs).size + k) cs :=
        .of_drop (hdrop ▸ hk)
      rcases hcases with ⟨rfl, -, rfl⟩ | ⟨rfl, -, g', hg', rfl⟩ | ⟨-, a, size, g', ha, hg', rfl⟩
      · exact hsucc ⟨[], rest, rfl, rfl⟩
      · have := hsucc (EndsLine.of_drop (m := 1) (ih hg'))
        rwa [← Nat.add_assoc] at this
      · have := hsucc (EndsLine.of_drop (m := size) (ih hg'))
        rwa [← Nat.add_assoc] at this

/-- So it does behind its name. -/
theorem endsLine_of_extentBehind {name : String} (read : Gap)
    (hk : (extentBehind name d read (cs.drop read.size)).size? = some k) : EndsLine k cs := by
  obtain ⟨g, hending, rfl⟩ := size?_extentBehind hk
  exact (endsLine_of_ending? hending).of_drop

/-- So does a directive by its name. -/
theorem endsLine_of_extentOf {name : String} {size : Nat} (h : extentOf name size (cs.drop size) = .trivia k) :
    EndsLine k cs := by
  rcases extentOf_cases name size (cs.drop size) [] with ⟨hcs, -⟩ | ⟨d, hcs, -⟩ | ⟨hcs, -⟩
  · exact absurd (hcs.symm.trans h) nofun
  · rw [hcs] at h
    exact endsLine_of_extentBehind ⟨size, false⟩ (by rw [h]; rfl)
  · rw [hcs, freeExtent] at h
    generalize (if isTextOptional name then gapInLine _ else gap _) = lead at h
    split at h
    · exact absurd h nofun
    · rw [List.drop_drop, List.drop_drop] at h
      exact endsLine_of_extentBehind ⟨_, _⟩ (by rw [h]; rfl)

/-- **Directives end with a line break.** -/
theorem endsLine_of_extent (h : extent cs = .trivia k) : EndsLine k cs := by
  by_cases hhead : cs.head? = some '!'
  · obtain ⟨rest, rfl⟩ := List.head?_eq_some_iff.mp hhead
    exact absurd h nofun
  · rw [extent_of_ne hhead] at h
    dsimp only at h
    split at h
    · rw [List.drop_drop] at h
      exact endsLine_of_extentOf h
    · exact absurd h nofun

end Directive

namespace Token

open Lexeme

variable {c : Char} {cs rest f : List Char} {shape : Shape}

/-! ### Texts that are passed over -/

/-- Tokens without the gap in front of the first. -/
def headless : List Token → List Token
  | [] => []
  | t :: ts => { t with gap := [] } :: ts

/-- Which gap is carried along makes no difference but for the first token. -/
theorem headless_ofLexemes (start : Nat) (gap gap' : List Piece) (lexemes : List Lexeme) :
    headless (ofLexemes start gap lexemes) = headless (ofLexemes start gap' lexemes) := by
  induction lexemes generalizing start gap gap' with
  | nil => rfl
  | cons l lexemes ih =>
      obtain ⟨shape, cs⟩ := l
      cases shape with
      | blank | comment | directive => exact ih _ _ _
      | token kind => rfl

/-- In front of any text, a text adds to the gap and to nothing else. -/
def Skips (f : List Char) : Prop :=
  ∀ start rest, headless (behind start (f ++ rest)) = headless (behind (start + f.length) rest)

theorem Skips.nil : Skips [] := fun _ _ => rfl

/-- What is skipped behind what is skipped is skipped. -/
theorem Skips.append {g : List Char} (hf : Skips f) (hg : Skips g) : Skips (f ++ g) := fun start rest => by
  rw [List.append_assoc, hf, hg, List.length_append, Nat.add_assoc]

/-- A piece of a gap is passed over. -/
theorem skip_piece {k : Nat} (start : Nat) (hnext : next [] c cs = (shape, k, [])) (hle : k ≤ cs.length)
    (hshape : shape.kind? = none) :
    headless (behind start (c :: cs)) = headless (behind (start + (k + 1)) (cs.drop k)) := by
  have hlength : (c :: cs.take k).length = k + 1 := by
    rw [List.length_cons, List.length_take, Nat.min_eq_left hle]
  rw [behind, cut_cons hnext]
  cases shape with
  | blank | comment | directive =>
      rw [ofLexemes, hlength]
      exact headless_ofLexemes _ _ _ _
  | token kind => exact absurd hshape (Option.some_ne_none kind)

/-- A blank begins a lexeme of blanks. -/
theorem next_blank (hc : isBlank c = true) (cs : List Char) :
    next [] c cs = (.blank, countWhile isBlank cs, []) := by
  simp only [next, first_of_isBlank hc]
  rfl

theorem countWhile_le (p : Char → Bool) (cs : List Char) : countWhile p cs ≤ cs.length :=
  (List.takeWhile_sublist p).length_le

/-- A blank is passed over. -/
theorem skips_blank (hc : isBlank c = true) : Skips [c] := by
  intro start rest
  rw [List.singleton_append, skip_piece start (next_blank hc rest) (countWhile_le _ _) rfl]
  cases rest with
  | nil => rfl
  | cons d rest =>
      cases hd : isBlank d with
      | false =>
          have hzero : countWhile isBlank (d :: rest) = 0 := by simp [countWhile, hd]
          rw [hzero]
          rfl
      | true =>
          have hmore : countWhile isBlank (d :: rest) = countWhile isBlank rest + 1 := by simp [countWhile, hd]
          rw [skip_piece _ (next_blank hd rest) (countWhile_le _ _) rfl, hmore, List.length_singleton,
            List.drop_succ_cons]
          exact congrArg (fun start => headless (behind start _)) (by omega)

/-- Blanks are skipped. -/
theorem skips_of_forall_isBlank (h : ∀ c ∈ f, isBlank c = true) : Skips f := by
  induction f with
  | nil => exact .nil
  | cons c f ih =>
      obtain ⟨hc, hf⟩ := List.forall_mem_cons.mp h
      exact (skips_blank hc).append (ih hf)

/-! #### Comments -/

/-- A comment is a lexeme. -/
theorem next_comment {size : Nat} (h : comment? (c :: cs) = some size) :
    next [] c cs = (.comment, size - 1, []) := by
  have hc : c = '/' := by
    unfold comment? at h
    split at h
    · next heq => exact (List.cons.inj heq).1
    · next heq => exact (List.cons.inj heq).1
    · exact absurd h nofun
  have hfirst : first c cs = (.comment, size - 1) := by
    subst hc
    rw [first_eq, h]
    rfl
  simp only [next, hfirst]
  rfl

/-- Where a block comment ends. -/
theorem blockRest?_append {body : List Char} (h : ¬ ['*', '/'] <:+: body) (rest : List Char) :
    blockRest? (body ++ '*' :: '/' :: rest) = some (body.length + 2) := by
  induction body with
  | nil => rfl
  | cons c body ih =>
      have hbody : ¬ ['*', '/'] <:+: body := fun hin => h (hin.trans (List.suffix_cons c body).isInfix)
      have hne : ¬ (c = '*' ∧ (body ++ '*' :: '/' :: rest).head? = some '/') := by
        rintro ⟨rfl, hhead⟩
        cases body with
        | nil => exact absurd hhead (by simp)
        | cons d body =>
            obtain rfl : d = '/' := Option.some.inj hhead
            exact h ⟨[], body, rfl⟩
      rw [List.cons_append, blockRest?_cons, if_neg hne, ih hbody, Option.map_some, List.length_cons]

/-- A comment is skipped as a whole. -/
theorem skip_of_comment? (piece : List Char) (h : comment? (piece ++ rest) = some piece.length) (start : Nat) :
    headless (behind start (piece ++ rest)) = headless (behind (start + piece.length) rest) := by
  cases piece with
  | nil => exact absurd (two_le_of_comment? h) (by simp)
  | cons c piece =>
      rw [List.cons_append] at h
      have hnext := next_comment h
      rw [List.length_cons, Nat.add_sub_cancel] at hnext
      have hskip := skip_piece start hnext (by simp) rfl
      rwa [List.drop_left] at hskip

/-- **Block comments** are passed over. -/
theorem skips_block {body : List Char} (h : ¬ ['*', '/'] <:+: body) :
    Skips ('/' :: '*' :: (body ++ ['*', '/'])) := by
  intro start rest
  refine skip_of_comment? _ ?_ start
  have hrest := congrArg (Option.map (· + 2)) (blockRest?_append h rest)
  simpa [comment?] using hrest

/-- Whether a line comment stops in front of a character. -/
def breaksLine (c : Char) : Bool :=
  c == '\n' || c == '\r'

theorem countWhile_line {body : List Char} (h : ∀ c ∈ body, breaksLine c = false)
    (hrest : ∀ c ∈ rest.head?, breaksLine c = true) :
    countWhile (fun c => c != '\n' && c != '\r') (body ++ rest) = body.length := by
  have hneg (c : Char) : (c != '\n' && c != '\r') = !breaksLine c := by simp [breaksLine, bne]
  rw [countWhile, List.takeWhile_append_of_pos fun c hc => by rw [hneg, h c hc]; rfl]
  cases rest with
  | nil => simp
  | cons c rest =>
      have hc := hrest c rfl
      simp only [List.takeWhile_cons, hneg, hc]
      simp

/-- A line comment takes all up to the end of its line. -/
theorem comment?_line {body : List Char} (after : List Char) (hbody : ∀ c ∈ body, breaksLine c = false)
    (hafter : ∀ c ∈ after.head?, breaksLine c = true) :
    comment? ('/' :: '/' :: (body ++ after)) = some (body.length + 2) :=
  congrArg (fun size => some (size + 2)) (countWhile_line hbody hafter)

/-- **Line comments** are passed over, if a line break follows them. -/
theorem skips_line {body more : List Char} (h : ∀ c ∈ body, breaksLine c = false) (hc : breaksLine c = true)
    (hmore : Skips (c :: more)) : Skips ('/' :: '/' :: (body ++ c :: more)) := by
  intro start rest
  have hcomment := comment?_line (c :: more ++ rest) h fun d hd => Option.some.inj hd ▸ hc
  have hskip := skip_of_comment? ('/' :: '/' :: body) hcomment start
  have hlength : start + ('/' :: '/' :: body).length + (c :: more).length =
      start + ('/' :: '/' :: (body ++ c :: more)).length := by
    simp only [List.length_cons, List.length_append]
    omega
  rw [hmore, hlength] at hskip
  simpa using hskip

/-! #### Directives -/

/-- A directive is a lexeme of its extent. -/
theorem next_hash (cs : List Char) :
    next [] '#' cs = ((ofExtent (Directive.extent cs)).1, (ofExtent (Directive.extent cs)).2, []) := by
  have hstart : isIdentifierStart '#' = false := by decide
  have hword : word? ('#' :: cs) = none := by simp [word?, plainWord?, hstart]
  have hnumber : number? ('#' :: cs) = none := by
    simp [number?, integer?_eq, prefixedDigits, decimal, real?_eq, fraction]
  have hother : first '#' cs = ofExtent (Directive.extent cs) := by
    rw [first_eq, hword, hnumber]
    rfl
  have hbehind (e : Directive.Extent) (taken left : List Char) :
      behindCode [] (ofExtent e).1 '#' taken left = [] := by
    cases e <;> rfl
  simp only [next, hother, hbehind]

/-- **Directives** are passed over. -/
theorem skips_directive {line : List Char}
    (h : Directive.extent (line ++ '\n' :: cs) = .trivia (line.length + 1)) :
    Skips ('#' :: (line ++ ['\n'])) := by
  intro start rest
  have hagree : Agree line.length (line ++ '\n' :: cs) (line ++ '\n' :: rest) := .append (by decide) line cs rest
  have hextent := Directive.extent_settle hagree (k := line.length + 1) (by rw [h]; rfl) (Nat.le_refl _)
  have hnext := next_hash (line ++ '\n' :: rest)
  rw [hextent, h] at hnext
  change next [] '#' _ = (.directive, line.length + 1, []) at hnext
  have hskip := skip_piece start hnext (by simp) rfl
  have hsplit : line ++ '\n' :: rest = (line ++ ['\n']) ++ rest := by simp
  rw [hsplit, List.drop_left' (by simp)] at hskip
  simpa using hskip

/-- Outside of strings every lexeme is one of code. -/
theorem code_of_next {k : Nat} {around : List Surrounding} (h : next [] c cs = (shape, k, around)) :
    Code c cs shape := by
  obtain rfl : (first c cs).1 = shape := (Prod.mk.inj h).1
  exact code_first c cs

/-- A directive at the beginning of a text is a line. -/
theorem exists_line_of_next {k : Nat} {around : List Surrounding}
    (h : next [] c cs = (.directive, k, around)) :
    ∃ line rest, c = '#' ∧ cs = line ++ '\n' :: rest ∧ k = line.length + 1 ∧ around = [] ∧
      Directive.extent cs = .trivia k := by
  obtain rfl : c = '#' := by
    cases code_of_next h with
    | directive hc => exact hc
  rw [next_hash] at h
  obtain ⟨hshape, hrest⟩ := Prod.mk.inj h
  obtain ⟨hk, haround⟩ := Prod.mk.inj hrest
  cases hextent : Directive.extent cs with
  | trivia size =>
      rw [hextent] at hk
      obtain rfl : size = k := hk
      obtain ⟨line, rest, hcs, hk⟩ := Directive.endsLine_of_extent hextent
      exact ⟨line, rest, rfl, hcs, hk, haround.symm, rfl⟩
  | _ => exact absurd (hextent ▸ hshape) nofun

/-! ### Trivia put into a text -/

/-- Blanks, comments and directives. A directive is one that is read as such if it stands alone. -/
inductive Trivia : List Char → Prop
  | nil : Trivia []
  | blank {c : Char} {rest : List Char} (hc : isBlank c = true) (h : Trivia rest) : Trivia (c :: rest)
  | block (body : List Char) {rest : List Char} (hbody : ¬ ['*', '/'] <:+: body) (h : Trivia rest) :
      Trivia ('/' :: '*' :: (body ++ ['*', '/']) ++ rest)
  | line (body : List Char) {rest : List Char} (hbody : ∀ c ∈ body, breaksLine c = false) (h : Trivia rest) :
      Trivia ('/' :: '/' :: (body ++ ['\n']) ++ rest)
  | directive (text : List Char) {rest : List Char} (htext : Lexeme.ofChars text = [⟨.directive, text⟩]) (h : Trivia rest) :
      Trivia (text ++ rest)

/-- **Trivia is passed over.** -/
theorem Trivia.skips (h : Trivia f) : Skips f := by
  induction h with
  | nil => exact .nil
  | blank hc _ ih => exact (skips_blank hc).append ih
  | block body hbody _ ih => exact (skips_block hbody).append ih
  | line body hbody _ ih => exact (skips_line hbody rfl (skips_blank (by decide))).append ih
  | directive text htext _ ih =>
      refine Skips.append ?_ ih
      obtain ⟨c, cs, k, behind, rfl, hnext, htake, -⟩ := exists_of_cut htext
      obtain ⟨line, rest, rfl, rfl, rfl, -, hextent⟩ := exists_line_of_next hnext
      have hsplit : line ++ '\n' :: rest = (line ++ ['\n']) ++ rest := by simp
      rw [hsplit, List.take_left' (by simp)] at htake
      obtain rfl : rest = [] := by simpa using htake
      exact skips_directive hextent

/-! #### Regions -/

/-- The gap of a line is that of its blanks. -/
theorem size_gapOf_line {line : List Char} (hline : ∀ c ∈ line, c ≠ '\n' ∧ c ≠ '/') {b : Nat} (hb : line.length ≤ b) :
    (gapOf (fun c => isBlank c && c != '\n') b (line ++ '\n' :: rest)).size = countWhile isBlank line := by
  induction line generalizing b with
  | nil =>
      cases b with
      | zero => rfl
      | succ b => simp [gapOf, comment?, countWhile]
  | cons c line ih =>
      obtain ⟨⟨hbreak, hslash⟩, hline⟩ := List.forall_mem_cons.mp hline
      obtain ⟨b, rfl⟩ := Nat.exists_eq_add_one.mpr (Nat.zero_lt_of_lt hb)
      have ih := ih hline (Nat.le_of_succ_le_succ hb)
      have hcomment (cs : List Char) : comment? (c :: cs) = none := by
        unfold comment?
        split <;> simp_all
      cases hc : isBlank c with
      | true => simp [gapOf, countWhile, hc, hbreak] at ih ⊢; exact ih
      | false => simp [gapOf, countWhile, hc, hcomment]

/-- The free text of a line is the line. -/
theorem freeText_line {line : List Char} (hline : ∀ c ∈ line, c ≠ '\n' ∧ c ≠ '/' ∧ c ≠ '\\') :
    Directive.freeText (line ++ '\n' :: rest) = line.length := by
  induction line with
  | nil => simp [Directive.freeText]
  | cons c line ih =>
      obtain ⟨⟨hbreak, hslash, hback⟩, hline⟩ := List.forall_mem_cons.mp hline
      rw [List.cons_append, Directive.freeText, ih hline, List.length_cons]
      all_goals simp_all

/-- A region takes the rest of its line. -/
theorem extentOf_region {name : String} (hname : name = "region" ∨ name = "endregion") {line : List Char}
    (hline : ∀ c ∈ line, c ≠ '\n' ∧ c ≠ '/' ∧ c ≠ '\\') (size : Nat) :
    Directive.extentOf name size (line ++ '\n' :: rest) = .trivia (size + line.length + 1) := by
  have hlead : (gapInLine (line ++ '\n' :: rest)).size = countWhile isBlank line :=
    size_gapOf_line (fun c hc => ⟨(hline c hc).1, (hline c hc).2.1⟩) (by simp)
  have hle : countWhile isBlank line ≤ line.length := countWhile_le _ _
  have hdrop : (line ++ '\n' :: rest).drop (countWhile isBlank line) =
      line.drop (countWhile isBlank line) ++ '\n' :: rest := List.drop_append_of_le_length hle
  have hfree : Directive.freeText (line.drop (countWhile isBlank line) ++ '\n' :: rest) =
      (line.drop (countWhile isBlank line)).length :=
    freeText_line fun c hc => hline c (List.mem_of_mem_drop hc)
  have hending : Directive.ending? .free [] (('\n' :: rest).length + 1) ('\n' :: rest) = some (⟨1, false⟩, true) := by
    simp [Directive.ending?, gapInLine, gapOf, comment?, Directive.isComplete]
  have hof (cs : List Char) : Directive.extentOf name size cs =
      Directive.extentBehind name .free
        ⟨size + (gapInLine cs).size + Directive.freeText (cs.drop (gapInLine cs).size), (gapInLine cs).hasComment⟩
        ((cs.drop (gapInLine cs).size).drop (Directive.freeText (cs.drop (gapInLine cs).size))) := by
    rcases hname with rfl | rfl <;> simp [Directive.extentOf, Directive.isTextOptional]
  have hsize : size + countWhile isBlank line + (line.drop (countWhile isBlank line)).length + 1 =
      size + line.length + 1 := by
    rw [List.length_drop]
    omega
  rw [hof, hlead, hdrop, hfree, List.drop_left, Directive.extentBehind, hending, ← hsize]
  rfl

/-- Where a region begins or ends, a directive stands on a line of its own, whatever the region is called. -/
theorem trivia_region {name : String} (hname : name = "region" ∨ name = "endregion") {line : List Char}
    (hline : ∀ c ∈ line, c ≠ '\n' ∧ c ≠ '/' ∧ c ≠ '\\') (hrest : Trivia rest) :
    Trivia ('#' :: (name.toList ++ (line ++ ['\n'])) ++ rest) := by
  refine .directive _ ?_ hrest
  have hextent : Directive.extent (name.toList ++ (line ++ ['\n'])) =
      .trivia (name.toList ++ (line ++ ['\n'])).length := by
    have hof : Directive.extent (name.toList ++ (line ++ ['\n'])) =
        Directive.extentOf name name.toList.length (line ++ ['\n']) := by
      rcases hname with rfl | rfl <;>
        simp [Directive.extent, Directive.names, countWhile, List.find?, List.isPrefixOf]
    rw [hof, extentOf_region hname hline, List.length_append, List.length_append, List.length_singleton,
      Nat.add_assoc]
  have hnext := next_hash (name.toList ++ (line ++ ['\n']))
  rw [hextent] at hnext
  rw [Lexeme.ofChars, cut_cons hnext]
  simp only [ofExtent, List.take_length, List.drop_length]
  rfl

/-! ### The gap at the beginning of a text -/

/-- Some lexemes end with a line comment, so that what is added to the text goes on with it. -/
def EndsInLine (lexemes : List Lexeme) : Prop :=
  ∃ front body, lexemes = front ++ [⟨.comment, '/' :: '/' :: body⟩]

/-- More lexemes in front do not change the last line. -/
theorem EndsInLine.append_left {lexemes : List Lexeme} (h : EndsInLine lexemes) (more : List Lexeme) :
    EndsInLine (more ++ lexemes) := by
  obtain ⟨front, body, rfl⟩ := h
  exact ⟨more ++ front, body, by simp⟩

/-- What is left of a text behind the line on which it begins. -/
def belowLine (cs : List Char) : List Char :=
  cs.dropWhile fun c => !breaksLine c

/-- Behind a text only the first line of another one is passed over, and nothing may follow. -/
def Swallows (f : List Char) : Prop :=
  ∀ more, (∀ start, behind start (belowLine more) = []) → ∀ start, behind start (f ++ more) = []

theorem headless_eq_nil_iff {ts : List Token} : headless ts = [] ↔ ts = [] := by
  cases ts <;> simp [headless]

/-- What is skipped has no tokens of its own. -/
theorem Skips.behind_eq_nil {start : Nat} (h : Skips f) : behind start f = [] := by
  have hskip := h start []
  rw [List.append_nil] at hskip
  exact headless_eq_nil_iff.mp (hskip.trans rfl)

/-- What is skipped may stand in front of what swallows. -/
theorem Skips.swallows {gap : List Char} (hf : Skips f) (h : Swallows gap) : Swallows (f ++ gap) :=
  fun more hmore start => by
    have hskip := hf start (gap ++ more)
    rw [h more hmore] at hskip
    rw [List.append_assoc]
    exact headless_eq_nil_iff.mp hskip

/-- A line comment at the end of a text goes on with what is added to the text. -/
theorem swallows_line {body : List Char} (hbody : ∀ c ∈ body, breaksLine c = false) :
    Swallows ('/' :: '/' :: body) := fun more hmore start => by
  have hsplit := List.takeWhile_append_dropWhile (p := fun c => !breaksLine c) (l := more)
  have htaken : ∀ c ∈ more.takeWhile fun c => !breaksLine c, breaksLine c = false := fun c hc => by
    simpa using List.mem_takeWhile_imp hc
  have hleft : ∀ c ∈ (belowLine more).head?, breaksLine c = true := fun c hc => by
    have hnot := List.head?_dropWhile_not (fun c => !breaksLine c) more
    rw [show (more.dropWhile _).head? = some c from hc] at hnot
    simpa using hnot
  rw [show more.dropWhile _ = belowLine more from rfl] at hsplit
  generalize more.takeWhile (fun c => !breaksLine c) = taken at hsplit htaken
  have hline := comment?_line _ (List.forall_mem_append.mpr ⟨hbody, htaken⟩) hleft
  have hskip := skip_of_comment? ('/' :: '/' :: (body ++ taken)) hline start
  rw [hmore] at hskip
  rw [← hsplit]
  exact headless_eq_nil_iff.mp (by simpa [headless] using hskip)

/-- A line comment above what swallows swallows. -/
theorem Swallows.below_line {body gap : List Char} (h : Swallows (c :: gap))
    (hbody : ∀ c ∈ body, breaksLine c = false) (hc : breaksLine c = true) :
    Swallows ('/' :: '/' :: (body ++ c :: gap)) := fun more hmore start => by
  have hline := comment?_line (c :: gap ++ more) hbody fun d hd => Option.some.inj hd ▸ hc
  have hskip := skip_of_comment? ('/' :: '/' :: body) hline start
  rw [h more hmore] at hskip
  exact headless_eq_nil_iff.mp (by simpa [headless] using hskip)

/-- What stands in front of the first token of a text. -/
structure IsGap (cs gap rest : List Char) : Prop where
  split : cs = gap ++ rest
  passes : ∀ start, headless (behind start cs) = headless (behind (start + gap.length) rest)
  skips_break : Skips (gap ++ ['\n'])
  skips : rest ≠ [] → Skips gap
  last : rest = [] → Skips gap ∨ (EndsInLine (cut [] 0 cs) ∧ Swallows gap)
  token : rest ≠ [] → ∀ start, ∃ t ts, behind start rest = t :: ts ∧ t.start = start
  head : ∀ c ∈ rest.head?, isBlank c = false

theorem IsGap.nil : IsGap [] [] [] where
  split := rfl
  passes _ := rfl
  skips_break := skips_blank (by decide)
  skips _ := .nil
  last _ := .inl .nil
  token h := absurd rfl h
  head := nofun

/-- A piece of a gap at the beginning of a text. -/
theorem IsGap.piece {gap : List Char} {k : Nat} (hnext : next [] c cs = (shape, k, [])) (hle : k ≤ cs.length)
    (hshape : shape.kind? = none) (h : IsGap (cs.drop k) gap rest) (hskips : Skips (c :: cs.take k)) :
    IsGap (c :: cs) (c :: cs.take k ++ gap) rest where
  split := by rw [List.append_assoc, ← h.split, List.cons_append, List.take_append_drop]
  passes start := by
    rw [skip_piece start hnext hle hshape, h.passes, List.length_append, List.length_cons,
      List.length_take, Nat.min_eq_left hle, Nat.add_assoc start]
  skips_break := by
    rw [List.append_assoc]
    exact hskips.append h.skips_break
  skips hrest := hskips.append (h.skips hrest)
  last hrest := (h.last hrest).imp hskips.append fun ⟨hline, hswallows⟩ => by
    rw [cut_cons hnext]
    exact ⟨hline.append_left [_], hskips.swallows hswallows⟩
  token := h.token
  head := h.head

/-- A token at the beginning of a text. -/
theorem IsGap.of_token {kind : Token.Kind} {k : Nat} {around : List Surrounding}
    (hnext : next [] c cs = (.token kind, k, around)) : IsGap (c :: cs) [] (c :: cs) where
  split := rfl
  passes _ := rfl
  skips_break := skips_blank (by decide)
  skips _ := .nil
  last h := absurd h (List.cons_ne_nil _ _)
  token _ start := by
    rw [behind, cut_cons hnext]
    exact ⟨_, _, rfl, rfl⟩
  head d hd := by
    obtain rfl : c = d := Option.some.inj hd
    cases hc : isBlank c with
    | false => rfl
    | true => exact absurd ((next_blank hc cs).symm.trans hnext) (by simp)

/-- A block comment has a body without its end. -/
theorem exists_of_blockRest? {size : Nat} (h : blockRest? cs = some size) :
    ∃ body rest, cs = body ++ '*' :: '/' :: rest ∧ size = body.length + 2 ∧ ¬ ['*', '/'] <:+: body := by
  induction cs generalizing size with
  | nil => exact absurd h nofun
  | cons c cs ih =>
      rw [blockRest?_cons] at h
      split at h
      · next hclose =>
        obtain ⟨rfl, hhead⟩ := hclose
        obtain ⟨rest, rfl⟩ := List.head?_eq_some_iff.mp hhead
        exact ⟨[], rest, rfl, (Option.some.inj h).symm, by simp⟩
      · next hopen =>
        obtain ⟨size', h', rfl⟩ := Option.map_eq_some_iff.mp h
        obtain ⟨body, rest, rfl, rfl, hbody⟩ := ih h'
        refine ⟨c :: body, rest, rfl, by simp, fun hin => ?_⟩
        rcases List.infix_cons_iff.mp hin with ⟨more, hpre⟩ | hin
        · obtain ⟨rfl, hbody'⟩ := List.cons.inj hpre
          rw [← hbody'] at hopen
          exact hopen ⟨rfl, rfl⟩
        · exact hbody hin

/-- A comment is the rest of a line, or goes up to where it is closed. -/
theorem exists_of_comment? {size : Nat} (h : comment? (c :: cs) = some size) : c = '/' ∧
    ((∃ body after, cs = '/' :: (body ++ after) ∧ (∀ d ∈ body, breaksLine d = false) ∧
        (∀ d ∈ after.head?, breaksLine d = true) ∧ size = body.length + 2) ∨
      ∃ body after, cs = '*' :: (body ++ '*' :: '/' :: after) ∧ ¬ ['*', '/'] <:+: body ∧ size = body.length + 4) := by
  unfold comment? at h
  split at h
  · next cs' heq =>
    obtain ⟨rfl, rfl⟩ := List.cons.inj heq
    obtain rfl := Option.some.inj h
    have hneg (c : Char) : (c != '\n' && c != '\r') = !breaksLine c := by simp [breaksLine, bne]
    have hbody : ∀ d ∈ cs'.takeWhile fun c => c != '\n' && c != '\r', breaksLine d = false := fun d hd => by
      have hd := List.mem_takeWhile_imp hd
      rw [hneg] at hd
      simpa using hd
    have hafter : ∀ d ∈ (cs'.dropWhile fun c => c != '\n' && c != '\r').head?, breaksLine d = true := fun d hd => by
      have hnot := List.head?_dropWhile_not (fun c => c != '\n' && c != '\r') cs'
      rw [Option.mem_def.mp hd] at hnot
      dsimp only at hnot
      rw [hneg] at hnot
      simpa using hnot
    exact ⟨rfl, .inl ⟨_, _, by rw [List.takeWhile_append_dropWhile], hbody, hafter, rfl⟩⟩
  · next cs' heq =>
    obtain ⟨rfl, rfl⟩ := List.cons.inj heq
    obtain ⟨size', hsize, rfl⟩ := Option.map_eq_some_iff.mp h
    obtain ⟨body, after, rfl, rfl, hbody⟩ := exists_of_blockRest? hsize
    exact ⟨rfl, .inr ⟨body, after, rfl, hbody, rfl⟩⟩
  · exact absurd h (by simp)

theorem isBlank_of_breaksLine (h : breaksLine c = true) : isBlank c = true := by
  have hc : c = '\n' ∨ c = '\r' := by simpa [breaksLine] using h
  rcases hc with rfl | rfl <;> decide

/-- A line comment at the beginning of a text. -/
theorem IsGap.line {body after gap : List Char} (hbody : ∀ c ∈ body, breaksLine c = false)
    (hafter : ∀ c ∈ after.head?, breaksLine c = true) (h : IsGap after gap rest) :
    IsGap ('/' :: '/' :: (body ++ after)) ('/' :: '/' :: (body ++ gap)) rest := by
  have hcomment := comment?_line after hbody hafter
  have hcut : cut [] 0 ('/' :: '/' :: (body ++ after)) = ⟨.comment, '/' :: '/' :: body⟩ :: cut [] 0 after := by
    rw [cut_cons (next_comment hcomment)]
    simp
  have hpasses (start : Nat) : headless (behind start ('/' :: '/' :: (body ++ after))) =
      headless (behind (start + ('/' :: '/' :: (body ++ gap)).length) rest) := by
    have hskip := skip_of_comment? ('/' :: '/' :: body) hcomment start
    rw [h.passes] at hskip
    exact hskip.trans (congrArg (fun start => headless (behind start rest)) (by simp; omega))
  -- Without a gap behind it the comment runs to the end of the text, where only a line break ends it.
  cases gap with
  | nil =>
      obtain rfl : after = rest := h.split
      obtain rfl : after = [] := by
        cases after with
        | nil => rfl
        | cons d after => exact absurd (isBlank_of_breaksLine (hafter d rfl)) (by simp [h.head d rfl])
      exact {
        split := by simp
        passes := hpasses
        skips_break := by simpa using skips_line hbody rfl (skips_blank (by decide))
        skips := fun hrest => absurd rfl hrest
        last := fun _ => .inr ⟨⟨[], body, hcut⟩, by simpa using swallows_line hbody⟩
        token := h.token
        head := h.head }
  | cons d gap =>
      have hsplit := h.split
      subst hsplit
      have hd : breaksLine d = true := hafter d rfl
      exact {
        split := by simp
        passes := hpasses
        skips_break := by simpa using skips_line hbody hd h.skips_break
        skips := fun hrest => skips_line hbody hd (h.skips hrest)
        last := fun hrest => (h.last hrest).imp (skips_line hbody hd) fun ⟨hline, hswallows⟩ => by
          rw [hcut]
          exact ⟨hline.append_left [_], hswallows.below_line hbody hd⟩
        token := h.token
        head := h.head }

/-- A comment at the beginning of a text. -/
theorem IsGap.of_comment {size k : Nat} {around : List Surrounding} {gap : List Char}
    (hcomment : comment? (c :: cs) = some size) (hnext : next [] c cs = (.comment, k, around))
    (h : IsGap (cs.drop k) gap rest) : IsGap (c :: cs) (c :: cs.take k ++ gap) rest := by
  obtain ⟨rfl, rfl⟩ := Prod.mk.inj (Prod.mk.inj (hnext.symm.trans (next_comment hcomment))).2
  obtain ⟨rfl, ⟨body, after, rfl, hbody, hafter, rfl⟩ | ⟨body, after, rfl, hbody, rfl⟩⟩ := exists_of_comment? hcomment
  · simp only [Nat.add_succ_sub_one, List.drop_succ_cons, List.drop_left, List.take_succ_cons, List.take_left] at h ⊢
    exact .line hbody hafter h
  · have hsplit : '*' :: (body ++ '*' :: '/' :: after) = ('*' :: (body ++ ['*', '/'])) ++ after := by simp
    refine .piece (next_comment hcomment) (by simp) rfl h ?_
    rw [hsplit, List.take_left' (by simp)]
    exact skips_block hbody

/-- What stands in front of the first token of a text. -/
theorem exists_gap (cs : List Char) : ∃ gap rest, IsGap cs gap rest := by
  induction hn : cs.length using Nat.strongRecOn generalizing cs with
  | ind n ih =>
      subst hn
      cases cs with
      | nil => exact ⟨[], [], .nil⟩
      | cons c cs =>
          generalize hnext : next [] c cs = r
          obtain ⟨shape, k, around⟩ := r
          obtain ⟨gap, rest, hgap⟩ := ih _ (by rw [List.length_drop, List.length_cons]; omega : (cs.drop k).length < (c :: cs).length) _ rfl
          -- Blanks, comments and directives belong to the gap. Anything else is the token behind it.
          cases code_of_next hnext with
          | blank hc =>
              obtain ⟨rfl, rfl⟩ := Prod.mk.inj (Prod.mk.inj (hnext.symm.trans (next_blank hc cs))).2
              refine ⟨_, rest, hgap.piece hnext (countWhile_le _ _) rfl (skips_of_forall_isBlank ?_)⟩
              refine List.forall_mem_cons.mpr ⟨hc, fun d hd => ?_⟩
              rw [countWhile, ← List.prefix_iff_eq_take.mp (List.takeWhile_prefix _)] at hd
              exact List.mem_takeWhile_imp hd
          | comment hcomment => exact ⟨_, rest, .of_comment hcomment hnext hgap⟩
          | directive hc =>
              obtain ⟨line, after, rfl, rfl, rfl, rfl, hextent⟩ := exists_line_of_next hnext
              have hsplit : line ++ '\n' :: after = (line ++ ['\n']) ++ after := by simp
              refine ⟨_, rest, hgap.piece hnext (by simp) rfl ?_⟩
              rw [hsplit, List.take_left' (by simp)]
              exact skips_directive hextent
          | _ => exact ⟨[], c :: cs, .of_token hnext⟩

end Token

end InteropStubs
