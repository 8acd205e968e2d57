import InteropStubs.Proofs.Token.Next
import InteropStubs.Proofs.Token.Munch
import InteropStubs.Proofs.Token.Source

/-!
# The front of a text

What is in front of a semicolon or a brace outside of strings is cut into lexemes in the same way whatever
follows it, if none of the lexemes is broken (`Lexeme.cut_front`). Whether strings are open there can be told
from the quotes in front, since each of them opens or closes one (`Lexeme.next_height`).
-/

namespace InteropStubs

open Text Scan

/-! ### Strings around a place -/

namespace Surrounding

/-- Whether a place is directly in a string. -/
def isQuote : Surrounding → Bool
  | quote _ => true
  | hole .. | format => false

/-- Around every hole there is a string. -/
def Grounded (around : List Surrounding) : Prop :=
  ∀ s ∈ around.getLast?, s.isQuote = true

/-- How many strings are open. -/
def height (around : List Surrounding) : Nat :=
  around.countP isQuote

variable {s : Surrounding} {around : List Surrounding}

/-- Outside of all strings is grounded. -/
theorem Grounded.nil : Grounded [] :=
  fun _ hs => absurd hs (Option.not_mem_none _)

theorem Grounded.tail (h : Grounded (s :: around)) : Grounded around := by
  cases around with
  | nil => exact nofun
  | cons => exact h

/-- A string in something grounded is grounded. -/
theorem Grounded.quote_cons (h : Grounded around) (isVerbatim : Bool) : Grounded (.quote isVerbatim :: around) := by
  cases around with
  | nil =>
      intro s hs
      obtain rfl := Option.some.inj hs
      rfl
  | cons => exact h

theorem Grounded.cons (h : Grounded around) (hne : around ≠ []) : Grounded (s :: around) := by
  cases around with
  | nil => exact absurd rfl hne
  | cons => exact h

/-- A hole is in something. -/
theorem Grounded.ne_nil (h : Grounded (s :: around)) (hs : s.isQuote = false) : around ≠ [] := by
  rintro rfl
  exact absurd (h s rfl) (by simp [hs])

/-- Where no string is open, there is nothing around. -/
theorem eq_nil_of_height (h : Grounded around) (hheight : height around = 0) : around = [] := by
  cases hlast : around.getLast? with
  | none => exact List.getLast?_eq_none_iff.mp hlast
  | some s =>
      have hmem := List.mem_of_getLast? hlast
      have hcount := List.countP_eq_zero.mp hheight s hmem
      exact absurd (h s hlast) hcount

end Surrounding

namespace Lexeme

open Surrounding

variable {n k : Nat} {c : Char} {cs : List Char} {shape : Shape} {around behind : List Surrounding}

/-- How many strings with holes some lexemes begin. -/
def opened (lexemes : List Lexeme) : Nat :=
  lexemes.countP fun l => l.shape == .token .openingQuote

/-- How many they end. -/
def closed (lexemes : List Lexeme) : Nat :=
  lexemes.countP fun l => l.shape == .token .closingQuote

/-- The characters of some lexemes. -/
def chars (lexemes : List Lexeme) : List Char :=
  lexemes.flatMap text

/-- Code does not end a string. -/
theorem first_ne_closingQuote (c : Char) (cs : List Char) : (first c cs).1 ≠ .token .closingQuote := by
  intro h
  have hcode := code_first c cs
  rw [h] at hcode
  cases hcode

/-- Behind code that opens no string, the innermost hole may have changed or ended. -/
theorem behindCode_cases (around : List Surrounding) (taken left : List Char) (h : shape ≠ .token .openingQuote) :
    behindCode around shape c taken left = around ∨ ∃ s outer, around = s :: outer ∧ s.isQuote = false ∧
      (behindCode around shape c taken left = outer ∨
        ∃ s', s'.isQuote = false ∧ behindCode around shape c taken left = s' :: outer) := by
  unfold behindCode
  split
  · exact absurd rfl h
  · next brackets questions outer =>
    refine .inr ⟨_, outer, rfl, rfl, ?_⟩
    repeat' split
    all_goals first | exact .inl rfl | exact .inr ⟨_, rfl, rfl⟩
  · exact .inl rfl

/-- Code opens at most one string and closes none. -/
theorem behindCode_height (taken left : List Char) (h : Grounded around) :
    Grounded (behindCode around shape c taken left) ∧
      height (behindCode around shape c taken left) =
        height around + if shape = .token .openingQuote then 1 else 0 := by
  by_cases hopening : shape = .token .openingQuote
  · subst hopening
    exact ⟨h.quote_cons _, List.countP_cons_of_pos rfl⟩
  · rw [if_neg hopening]
    rcases behindCode_cases (c := c) around taken left hopening with heq | ⟨s, outer, rfl, hs, heq | ⟨s', hs', heq⟩⟩
    · rw [heq]
      exact ⟨h, rfl⟩
    · rw [heq]
      exact ⟨h.tail, by simp [height, hs]⟩
    · rw [heq]
      exact ⟨h.tail.cons (h.ne_nil hs), by simp [height, hs, hs']⟩

/-- Strings are opened and closed by their quotes. -/
theorem next_height (h : Grounded around) (hf : next around c cs = (shape, k, behind))
    (hshape : shape.isBroken = false) :
    Grounded behind ∧
      height behind + (if shape = .token .closingQuote then 1 else 0) =
        height around + if shape = .token .openingQuote then 1 else 0 := by
  have hcode (hf : nextOfCode around c cs = (shape, k, behind)) :
      Grounded behind ∧ height behind + (if shape = .token .closingQuote then 1 else 0) =
        height around + if shape = .token .openingQuote then 1 else 0 := by
    have hne := first_ne_closingQuote c cs
    unfold nextOfCode at hf
    generalize first c cs = r at hf hne
    obtain ⟨shape', k'⟩ := r
    obtain rfl : shape' = shape := (Prod.mk.inj hf).1
    obtain rfl := (Prod.mk.inj (Prod.mk.inj hf).2).2
    rw [if_neg hne]
    exact behindCode_height _ _ h
  rcases around with _ | ⟨v | ⟨brackets, questions⟩ | _, outer⟩
  · exact hcode hf
  case cons.hole => exact hcode hf
  case cons.format =>
      unfold next at hf
      dsimp only at hf
      split at hf
      · cases hf
        exact ⟨h.tail, by simp [height, isQuote]⟩
      · split at hf
        · cases hf
          exact absurd hshape (by decide)
        · cases hf
          exact ⟨h, by simp⟩
  case cons.quote =>
      rw [next_quote] at hf
      dsimp only at hf
      split at hf
      · cases hf
        exact ⟨h, by simp⟩
      · split at hf
        · cases hf
          exact ⟨h.cons (List.cons_ne_nil _ _), by simp [height, isQuote]⟩
        · split at hf
          · cases hf
            exact ⟨h.tail, by simp [height, List.countP_cons, isQuote]⟩
          · cases hf
            exact absurd hshape (by decide)

/-! ### The front -/

/-- Whether a character is a semicolon or a brace. -/
def isBorder (c : Char) : Bool :=
  c == ';' || c == '{' || c == '}'

/-- A border is a semicolon or a brace. -/
theorem isBorder_cases {d : Char} (hd : isBorder d = true) : d = ';' ∨ d = '{' ∨ d = '}' := by
  simpa [isBorder, or_assoc] using hd

theorem mem_stops_of_isBorder {d : Char} (hd : isBorder d = true) : d ∈ stops := by
  rcases isBorder_cases hd with rfl | rfl | rfl <;> decide

/-- A mark goes on only as the longer marks do that begin with it. -/
theorem mark_of_short {d : Char} (hshort : shortMarks.contains d = true)
    (hlong : ∀ m ∈ longMarks, m.toList.head? = some d → m.toList.tail.head? ≠ cs.head?) :
    mark d cs = (.token .mark, 0) := by
  have hsecond : ∀ m ∈ longMarks, m.toList ≠ [] ∧ m.toList.tail ≠ [] := by decide
  have hnone : (longMarks.find? fun m => m.toList.isPrefixOf (d :: cs)) = none := by
    refine List.find?_eq_none.mpr fun m hm hprefix => ?_
    obtain ⟨hne, htail⟩ := hsecond m hm
    obtain ⟨a, as, has⟩ := List.exists_cons_of_ne_nil hne
    have hlong := hlong m hm
    rw [has] at hlong htail hprefix
    obtain ⟨b, bs, rfl⟩ := List.exists_cons_of_ne_nil htail
    obtain ⟨rest, hrest⟩ := List.isPrefixOf_iff_prefix.mp hprefix
    obtain ⟨rfl, rfl⟩ := List.cons.inj hrest
    exact hlong rfl rfl
  rw [mark, hnone]
  exact if_pos hshort

/-- No lexeme but a mark begins with a stop, unless that is a line break. -/
theorem first_eq_mark {d : Char} (hd : d ∈ stops) (hbreak : d ≠ '\n') (cs : List Char) : first d cs = mark d cs := by
  have hagree : Agree 0 (d :: cs) [d] := .stop hd cs []
  have hnone : ∀ d ∈ stops, beginsComment [d] = false ∧ beginsString [d] = false ∧ opensRaw [d] = false ∧
      word? [d] = none ∧ number? [d] = none ∧ opening? [d] = none ∧ d ≠ '#' ∧ d ≠ '\x27' ∧ d ≠ '"' ∧ d ≠ '/' :=
    forall_mem_stops.mpr (by decide)
  have hblank : ∀ d ∈ stops, d = '\n' ∨ isBlank d = false := forall_mem_stops.mpr (by decide)
  replace hblank := (hblank d hd).resolve_left hbreak
  obtain ⟨hcomment, hstring, hraw, hword, hnumber, hopening, hhash, hcharacter, hquote, hslash⟩ := hnone d hd
  rw [← beginsComment_agree hagree] at hcomment
  rw [← beginsString_agree hagree] at hstring
  rw [← opensRaw_agree hagree] at hraw
  rw [first_eq, comment?_of_not_begins hcomment, word?_agree hagree, number?_agree hagree,
    string?_of_not_begins hstring, opening?_agree hagree, other_of_ne hhash hcharacter hquote]
  simp [hblank, hword, hnumber, hopening, hslash, rawWithHoles?, hraw]

/-- A semicolon or a brace is a token of its own. -/
theorem first_border {d : Char} (hd : isBorder d = true) (cs : List Char) : first d cs = (.token .mark, 0) := by
  have hplain : d ≠ '\n' ∧ shortMarks.contains d = true ∧ ∀ m ∈ longMarks, m.toList.head? ≠ some d := by
    rcases isBorder_cases hd with rfl | rfl | rfl <;> decide
  obtain ⟨hbreak, hshort, hlong⟩ := hplain
  rw [first_eq_mark (mem_stops_of_isBorder hd) hbreak, mark_of_short hshort fun m hm h => absurd h (hlong m hm)]

/-- So is a closing angle bracket that no equals sign follows. -/
theorem first_angle (hcs : cs.head? ≠ some '=') : first '>' cs = (.token .mark, 0) := by
  have hlong : ∀ m ∈ longMarks, m.toList.head? = some '>' → m.toList.tail.head? = some '=' := by decide
  rw [first_eq_mark (by decide) (by decide), mark_of_short (by decide) fun m hm h => hlong m hm h ▸ hcs.symm]

/-- To pass over some characters is to cut behind them. -/
theorem cut_eq_cut_drop (around : List Surrounding) (skip : Nat) (cs : List Char) :
    cut around skip cs = cut around 0 (cs.drop skip) := by
  induction cs generalizing skip with
  | nil => simp [cut]
  | cons c cs ih =>
      cases skip with
      | zero => rfl
      | succ skip => exact ih skip

/-- What is cut is the first lexeme, and what is cut behind it. -/
theorem cut_cons (hf : next around c cs = (shape, k, behind)) :
    cut around 0 (c :: cs) = ⟨shape, c :: cs.take k⟩ :: cut behind 0 (cs.drop k) := by
  rw [cut, hf]
  simp only [cut_eq_cut_drop behind k cs]

/-- Nothing is lost in cutting. -/
theorem chars_cut (around : List Surrounding) (cs : List Char) : chars (cut around 0 cs) = cs :=
  flatMap_text_cut around 0 cs

/-- The lexeme at the beginning of a text, and how the text goes on. -/
theorem exists_of_cut {l : Lexeme} {lexemes : List Lexeme} (h : cut around 0 cs = l :: lexemes) :
    ∃ c cs' k behind, cs = c :: cs' ∧ next around c cs' = (l.shape, k, behind) ∧ l.text = c :: cs'.take k ∧
      cut behind 0 (cs'.drop k) = lexemes := by
  cases cs with
  | nil => exact absurd h nofun
  | cons c cs =>
      generalize hf : next around c cs = r
      obtain ⟨shape, k, behind⟩ := r
      obtain ⟨rfl, hlexemes⟩ := List.cons.inj ((cut_cons hf).symm.trans h)
      exact ⟨c, cs, k, behind, rfl, hf, rfl, hlexemes⟩

/-- What is behind some lexemes is cut by itself. -/
theorem exists_cut_of_append {front rest : List Lexeme} (h : cut around 0 cs = front ++ rest) :
    ∃ around' cs', cut around' 0 cs' = rest := by
  induction front generalizing around cs with
  | nil => exact ⟨around, cs, h⟩
  | cons l front ih =>
      obtain ⟨c, cs', k, behind, rfl, hf, htext, hrest⟩ := exists_of_cut h
      exact ih hrest

/-- How words begin. -/
theorem beginsWord_of_cut {front rest : List Lexeme} {text : List Char}
    (h : cut around 0 cs = front ++ ⟨.token .word, c :: text⟩ :: rest) : beginsWord c = true := by
  obtain ⟨around', cs', h⟩ := exists_cut_of_append h
  obtain ⟨d, cs', k, behind, rfl, hf, htext, -⟩ := exists_of_cut h
  obtain ⟨rfl, -⟩ := List.cons.inj htext
  match around' with
  | [] | .hole brackets questions :: outer =>
      have hcode := code_first c cs'
      rw [show (first c cs').1 = .token .word from (Prod.mk.inj hf).1] at hcode
      cases hcode with
      | word hword => exact beginsWord_of_word? hword
  | .format :: outer =>
      unfold next at hf
      dsimp only at hf
      split at hf
      · exact absurd (Prod.mk.inj hf).1 nofun
      · split at hf <;> exact absurd (Prod.mk.inj hf).1 nofun
  | .quote v :: outer =>
      rw [next_quote] at hf
      dsimp only at hf
      split at hf
      · exact absurd (Prod.mk.inj hf).1 nofun
      · split at hf
        · exact absurd (Prod.mk.inj hf).1 nofun
        · split at hf <;> exact absurd (Prod.mk.inj hf).1 nofun

/-- A semicolon or a brace is no word. -/
theorem ne_word_of_border {front rest : List Lexeme} {kind : Token.Kind} {d : Char} (hd : isBorder d = true)
    (h : cut around 0 cs = front ++ ⟨.token kind, [d]⟩ :: rest) : kind ≠ .word := by
  rintro rfl
  have hbegins := beginsWord_of_cut h
  rcases isBorder_cases hd with rfl | rfl | rfl <;> exact absurd hbegins (by decide)

/-- A stop outside of strings that is a token of its own ends no other token. -/
theorem cut_stop {rest : List Lexeme} {d : Char} (hcut : cut [] 0 cs = ⟨.token .mark, [d]⟩ :: rest) :
    cs = d :: chars rest ∧ cut [] 0 (chars rest) = rest ∧
      ∀ more, first d more = (.token .mark, 0) →
        cut [] 0 (d :: more) = ⟨.token .mark, [d]⟩ :: cut [] 0 more := by
  obtain ⟨c, cs, k, behind, rfl, hf, htext, hrest⟩ := exists_of_cut hcut
  obtain ⟨rfl, htake⟩ := List.cons.inj htext
  obtain rfl : behind = [] := by
    obtain ⟨hshape, hmore⟩ := Prod.mk.inj hf
    rw [← (Prod.mk.inj hmore).2, hshape]
    rfl
  have hdrop : cs.drop k = cs := by
    have hsplit := List.take_append_drop k cs
    rwa [← htake] at hsplit
  rw [hdrop] at hrest
  obtain rfl := hrest
  rw [chars_cut]
  refine ⟨rfl, rfl, fun more hmore => ?_⟩
  have hnext : next [] d more = (.token .mark, 0, []) := by
    simp only [next, hmore]
    rfl
  exact cut_cons hnext

/-- Behind the content of a string the string is still open. -/
theorem behind_ne_nil_of_content {v : Bool} {outer : List Surrounding}
    (hf : next (.quote v :: outer) c cs = (.token .content, k, behind)) : behind ≠ [] := by
  rw [next_quote] at hf
  dsimp only at hf
  split at hf
  · rw [← (Prod.mk.inj (Prod.mk.inj hf).2).2]
    exact List.cons_ne_nil _ _
  · split at hf
    · exact absurd (Prod.mk.inj hf).1 (by decide)
    · split at hf <;> exact absurd (Prod.mk.inj hf).1 (by decide)

/-- Where all strings are closed at the end of some lexemes, there are lexemes behind the content of a string. -/
theorem chars_ne_nil_of_content {v : Bool} {outer : List Surrounding} {front rest : List Lexeme}
    (hf : next (.quote v :: outer) c cs = (.token .content, k, behind)) (hground : Grounded behind)
    (hcut : cut behind 0 ds = front ++ rest) (hclosed : height behind + opened front ≤ closed front) :
    chars front ≠ [] := by
  cases front with
  | nil => exact absurd (eq_nil_of_height hground (Nat.le_zero.mp hclosed)) (behind_ne_nil_of_content hf)
  | cons l front =>
      have hne := text_ne_nil_of_mem_cut (hcut ▸ List.mem_cons_self : l ∈ cut behind 0 ds)
      rw [chars, List.flatMap_cons]
      exact fun hnil => hne (List.append_eq_nil_iff.mp hnil).1

/-- **The front of a text** that ends with a stop outside of strings is cut in one way, as long as the stop is a
token of its own. -/
theorem cut_front {front rest : List Lexeme} {d : Char} (hd : d ∈ stops) (hground : Grounded around)
    (hcut : cut around 0 cs = front ++ ⟨.token .mark, [d]⟩ :: rest)
    (hbroken : ∀ l ∈ front, l.shape.isBroken = false) (hclosed : height around + opened front ≤ closed front) :
    cs = chars front ++ d :: chars rest ∧ cut [] 0 (chars rest) = rest ∧
      ∀ more, first d more = (.token .mark, 0) →
        cut around 0 (chars front ++ d :: more) = front ++ ⟨.token .mark, [d]⟩ :: cut [] 0 more := by
  induction front generalizing around cs with
  | nil =>
      obtain rfl := eq_nil_of_height hground (Nat.le_zero.mp hclosed)
      exact cut_stop hcut
  | cons l front ih =>
      obtain ⟨hl, hfront⟩ := List.forall_mem_cons.mp hbroken
      obtain ⟨c, cs, k, behind, rfl, hf, htext, hrest⟩ := exists_of_cut hcut
      obtain ⟨hground', hheight⟩ := next_height hground hf hl
      have hbehind : height behind + opened front ≤ closed front := by
        simp only [opened, closed, List.countP_cons, beq_iff_eq] at hclosed ⊢
        omega
      obtain ⟨hchars, hmore, hall⟩ := ih hground' hrest hfront hbehind
      have hsplit : cs = (cs.take k ++ chars front) ++ d :: chars rest := by
        rw [List.append_assoc, ← hchars, List.take_append_drop]
      have htake : (cs.take k).length = k := by
        have hlong : 0 < (cs.drop k).length := by
          rw [hchars, List.length_append, List.length_cons]
          omega
        rw [List.length_drop] at hlong
        rw [List.length_take]
        omega
      have hcharsl : chars (l :: front) = c :: (cs.take k ++ chars front) := by
        rw [chars, List.flatMap_cons, htext]
        rfl
      refine ⟨by rw [hcharsl, List.cons_append, ← hsplit], hmore, fun more hfirst => ?_⟩
      have hagree : Agree (cs.take k ++ chars front).length cs ((cs.take k ++ chars front) ++ d :: more) := by
        have := Agree.append hd (cs.take k ++ chars front) (chars rest) more
        rwa [← hsplit] at this
      -- a stop directly behind the content of a string would not be outside of it
      have hcontent : l.shape = .token .content → (∃ v outer, around = .quote v :: outer) →
          k < (cs.take k ++ chars front).length := by
        rintro hshape ⟨v, outer, rfl⟩
        have := List.length_pos_iff.mpr (chars_ne_nil_of_content (hshape ▸ hf) hground' hrest hbehind)
        rw [List.length_append, htake]
        omega
      have hnext := next_settle hagree hf hl (by rw [List.length_append, htake]; exact Nat.le_add_right _ _)
        hcontent
      rw [hcharsl, List.cons_append, cut_cons hnext, List.append_assoc, List.take_left' htake,
        List.drop_left' htake, hall more hfirst, ← htext]
      rfl

end Lexeme

end InteropStubs
