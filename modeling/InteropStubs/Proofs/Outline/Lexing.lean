import InteropStubs.Proofs.Outline.Layout
import InteropStubs.Proofs.Token.Munch
import InteropStubs.Token.OfText

/-!
# Lexing what is written

Written tokens are read back one by one if they are *legible*: each is a word or a plain mark, and one
that touches the token in front of it does not go on with that token (`Legible`). Outlines are legible
(`clear_items`), and so the tokens of a printed outline are the leaves of its forms
(`Layout.ofChars_print`).
-/

namespace InteropStubs.Outline

open Text Scan

/-! ### Legible tokens -/

/-- A word, or a mark of one character. -/
def Leaf.IsSound (l : Leaf) : Prop :=
  l.kind = .word ∧ word? l.text.toList = some l.text.length ∨
    l.kind = .mark ∧ ∃ c ∈ Lexeme.plainMarks, l.text = c.toString

/-- A token ends where another one follows without a gap. -/
def Leaf.EndsBefore (l m : Leaf) : Prop :=
  ∀ c ∈ m.text.toList.head?, if l.kind = .word then endsWord c = true else isQuiet c = true

/-- Every token is a word or a plain mark, and it ends where a tight one follows. -/
def Legible : List Leaf → Prop
  | [] => True
  | l :: ls => l.IsSound ∧ (∀ m ∈ ls.head?, m.tight = true → l.EndsBefore m) ∧ Legible ls

/-- Legible tokens behind legible ones are legible, if they do not touch. -/
theorem Legible.append {ls ms : List Leaf} (hl : Legible ls) (hm : Legible ms)
    (hends : ∀ l ∈ ls.getLast?, ∀ m ∈ ms.head?, m.tight = true → l.EndsBefore m) :
    Legible (ls ++ ms) := by
  induction ls with
  | nil => exact hm
  | cons l ls ih =>
      obtain ⟨hsound, hnext, hls⟩ := hl
      cases ls with
      | nil => exact ⟨hsound, hends l rfl, hm⟩
      | cons k ls => exact ⟨hsound, hnext, ih hls hends⟩

/-- Forms that are legible, and that do not touch what is in front of them. -/
structure Clear (fs : List Form) : Prop where
  legible : Legible (leavesAll fs)
  loose : ∀ l ∈ (leavesAll fs).head?, l.tight = false

namespace Clear

theorem nil : Clear [] := ⟨trivial, nofun⟩

theorem append {fs gs : List Form} (hf : Clear fs) (hg : Clear gs) : Clear (fs ++ gs) where
  legible := by
    rw [leavesAll_append]
    exact hf.legible.append hg.legible fun l _ m hm htight => by simp [hg.loose m hm] at htight
  loose := by
    rw [leavesAll_append]
    cases h : leavesAll fs with
    | nil => exact hg.loose
    | cons l ls =>
        have hloose := hf.loose
        rw [h] at hloose
        exact hloose

theorem cons {f : Form} {fs : List Form} (hf : Clear [f]) (hfs : Clear fs) : Clear (f :: fs) :=
  hf.append hfs

theorem flatMap {α : Type} {forms : α → List Form} {xs : List α} (h : ∀ x ∈ xs, Clear (forms x)) :
    Clear (xs.flatMap forms) := by
  induction xs with
  | nil => exact nil
  | cons x xs ih =>
      exact (h x List.mem_cons_self).append (ih fun y hy => h y (List.mem_cons_of_mem _ hy))

/-- A word is clear. -/
theorem word {w : String} (hw : word? w.toList = some w.length) : Clear [.word w] :=
  ⟨⟨.inl ⟨rfl, hw⟩, nofun, trivial⟩, fun _ h => Option.some.inj h ▸ rfl⟩

theorem mark {c : Char} (hc : c ∈ Lexeme.plainMarks) : Clear [.mark c.toString] :=
  ⟨⟨.inr ⟨rfl, c, hc, rfl⟩, nofun, trivial⟩, fun _ h => Option.some.inj h ▸ rfl⟩

/-- A group is clear if what is in it is. -/
theorem group {b : Bracket} {inner : List Form} (hb : b = .round ∨ b = .curly)
    (hinner : Clear inner) : Clear [.group false b inner] := by
  have hbrackets : Clear [.mark b.opener] ∧ Clear [.mark b.closer] := by
    rcases hb with rfl | rfl
    · exact ⟨mark (c := '(') (by decide), mark (c := ')') (by decide)⟩
    · exact ⟨mark (c := '{') (by decide), mark (c := '}') (by decide)⟩
  have hall := hbrackets.1.append (hinner.append hbrackets.2)
  have hleaves : leavesAll [.group false b inner] =
      leavesAll ([.mark b.opener] ++ (inner ++ [.mark b.closer])) := by
    simp [Form.leaves, Form.mark]
  exact ⟨hleaves ▸ hall.legible, hleaves ▸ hall.loose⟩

/-- A list between commas is clear. -/
theorem list {fs : List (List Form)} (h : ∀ f ∈ fs, Clear f) : Clear (list fs) := by
  cases fs with
  | nil => exact nil
  | cons f fs =>
      refine (h f List.mem_cons_self).append (flatMap fun g hg => ?_)
      exact cons (mark (c := ',') (by decide)) (h g (List.mem_cons_of_mem _ hg))

end Clear

/-! ### Outlines are legible -/

theorem Identifier.quiet_head (x : Identifier) :
    ∀ c ∈ x.text.toList.head?, isQuiet c = true := by
  intro c hc
  cases h : x.text.toList with
  | nil => simp [h] at hc
  | cons d ds =>
      obtain rfl : d = c := by simpa [h] using hc
      exact (head_of_word? (h ▸ x.isWord)).2.1

/-- What is written of a name is legible, and it ends with a word. -/
theorem clear_name (n : Name) :
    Clear n.forms ∧ ∀ l ∈ (leavesAll n.forms).getLast?, l.kind = .word := by
  obtain ⟨x, xs⟩ := n
  have hrest (tight : Bool) (x : Identifier) :
      Legible (⟨tight, .word, x.text⟩ :: leavesAll (nameRest xs)) ∧
        ∀ l ∈ (⟨tight, .word, x.text⟩ :: leavesAll (nameRest xs)).getLast?, l.kind = .word := by
    induction xs generalizing tight x with
    | nil => exact ⟨⟨.inl ⟨rfl, x.isWord⟩, nofun, trivial⟩, fun l h => Option.some.inj h ▸ rfl⟩
    | cons y ys ih =>
        obtain ⟨hlegible, hlast⟩ := ih true y
        have hpoint : endsWord '.' = true := by decide
        refine ⟨⟨.inl ⟨rfl, x.isWord⟩, fun m hm _ => ?_, .inr ⟨rfl, '.', by decide, rfl⟩,
          fun m hm _ => ?_, hlegible⟩, hlast⟩
        · obtain rfl := Option.some.inj hm
          exact fun c hc => Option.some.inj hc ▸ hpoint
        · obtain rfl := Option.some.inj hm
          exact y.quiet_head
  exact ⟨⟨(hrest false x).1, fun _ h => Option.some.inj h ▸ rfl⟩, (hrest false x).2⟩

/-- A type by its name ends with a word. -/
theorem clear_plainType (t : PlainType) :
    Clear t.forms ∧ ∀ l ∈ (leavesAll t.forms).getLast?, l.kind = .word := by
  cases t with
  | named n => exact clear_name n
  | builtIn w h =>
      have hall : ∀ w ∈ builtIn, word? w.toList = some w.length := by decide
      exact ⟨.word (hall w h), fun _ h => Option.some.inj h ▸ rfl⟩

/-- A type is clear. -/
theorem clear_type (t : ValueType) : Clear t.forms := by
  obtain ⟨plain, suffix⟩ := t
  obtain ⟨hplain, hlast⟩ := clear_plainType plain
  have hne : leavesAll plain.forms ≠ [] := by cases plain <;> exact List.cons_ne_nil _ _
  have hends : endsWord '?' = true ∧ endsWord '[' = true := by decide
  have hsuffix : Legible (leavesAll suffix.forms) := by
    cases suffix with
    | none => trivial
    | nullable => exact ⟨.inr ⟨rfl, '?', by decide, rfl⟩, nofun, trivial⟩
    | array =>
        refine ⟨.inr ⟨rfl, '[', by decide, rfl⟩, fun m hm _ c hc => ?_,
          .inr ⟨rfl, ']', by decide, rfl⟩, nofun, trivial⟩
        obtain rfl := Option.some.inj hm
        obtain rfl := Option.some.inj hc
        decide
  have hnext : ∀ m ∈ (leavesAll suffix.forms).head?, ∀ c ∈ m.text.toList.head?,
      endsWord c = true := by
    intro m hm c hc
    cases suffix with
    | none => exact absurd hm nofun
    | nullable =>
        obtain rfl := Option.some.inj hm
        obtain rfl := Option.some.inj hc
        exact hends.1
    | array =>
        obtain rfl := Option.some.inj hm
        obtain rfl := Option.some.inj hc
        exact hends.2
  constructor
  · rw [ValueType.forms, leavesAll_append]
    refine hplain.legible.append hsuffix fun l hl m hm _ c hc => ?_
    rw [if_pos (hlast l hl)]
    exact hnext m hm c hc
  · intro l hl
    rw [ValueType.forms, leavesAll_append] at hl
    obtain ⟨k, ks, hk⟩ := List.exists_cons_of_ne_nil hne
    rw [hk] at hl
    exact hplain.loose l (hk ▸ hl)

/-- A parameter list is clear. -/
theorem clear_parameterList (ps : List Parameter) : Clear [parameterList ps] := by
  refine .group (.inl rfl) (.list fun f hf => ?_)
  obtain ⟨p, -, rfl⟩ := List.mem_map.mp hf
  exact (clear_type p.type).append (.word p.name.isWord)

/-- A member is clear. -/
theorem clear_member (m : Member) : Clear m.forms := by
  have hsemicolon : Clear [.mark ";"] := .mark (c := ';') (by decide)
  cases m with
  | method returns name ps =>
      have hreturns : Clear returns.forms := by
        cases returns with
        | nothing => exact .word (by decide)
        | value t => exact clear_type t
      exact hreturns.append ((Clear.word name.isWord).append
        ((clear_parameterList ps).append hsemicolon))
  | property type name first more =>
      refine (clear_type type).append ((Clear.word name.isWord).append
        (.group (.inr rfl) (.flatMap fun a _ => ?_)))
      have hword : Clear [.word a.word] := by cases a <;> exact .word (by decide)
      exact hword.append hsemicolon

/-- The bases of an interface are clear. -/
theorem clear_baseList (bases : List Name) : Clear (baseList bases) := by
  cases bases with
  | nil => exact .nil
  | cons n ns =>
      refine .cons (.mark (c := ':') (by decide)) (.list fun f hf => ?_)
      obtain ⟨m, -, rfl⟩ := List.mem_map.mp hf
      exact (clear_name m).1

mutual

/-- A using directive, a namespace and an interface are clear. -/
theorem clear_item : ∀ x : Item, Clear x.forms
  | .usingDirective n => by
      rw [Item.forms]
      exact .cons (.word (by decide)) ((clear_name n).1.append (.mark (c := ';') (by decide)))
  | .namespaceBlock n items => by
      rw [Item.forms]
      exact .cons (.word (by decide)) ((clear_name n).1.append (.group (.inr rfl) (clear_items items)))
  | .interface name bases members => by
      rw [Item.forms]
      exact .cons (.word (by decide)) (.cons (.word name.isWord)
        ((clear_baseList bases).append (.group (.inr rfl) (.flatMap fun m _ => clear_member m))))

/-- **Outlines are legible.** -/
theorem clear_items : ∀ xs : List Item, Clear (itemForms xs)
  | [] => .nil
  | x :: xs => by
      rw [itemForms]
      exact (clear_item x).append (clear_items xs)

end

/-! ### Lexemes -/

/-- A sound token does not begin with a blank. -/
theorem Leaf.IsSound.not_blank {l : Leaf} (h : l.IsSound) (rest : List Char) :
    ∀ c ∈ (l.text.toList ++ rest).head?, isBlank c = false := by
  intro c hc
  rcases h with ⟨-, hword⟩ | ⟨-, d, hd, htext⟩
  · cases htext : l.text.toList with
    | nil => exact absurd hword (by rw [htext]; exact nofun)
    | cons d ds =>
        rw [htext] at hc
        obtain rfl := Option.some.inj hc
        exact (head_of_word? (htext ▸ hword)).1
  · have hall : (Lexeme.plainMarks.all fun c => !isBlank c) = true := by decide
    rw [htext] at hc
    obtain rfl : d = c := by simpa [Char.toString] using hc
    simpa using List.all_eq_true.mp hall d hd

theorem Leaf.IsSound.text_ne {l : Leaf} (h : l.IsSound) : l.text ≠ "" := by
  intro heq
  rcases h with ⟨-, hword⟩ | ⟨-, d, hd, htext⟩
  · rw [heq] at hword
    exact absurd hword nofun
  · rw [heq] at htext
    exact absurd (congrArg String.toList htext) (by simp [Char.toString])

namespace Layout

variable {L : Layout}

/-- The lexeme of some blanks. -/
def blankLexeme (gap : List Char) : List Lexeme :=
  if gap = [] then [] else [⟨.blank, gap⟩]

/-- The lexemes of written tokens, with the blanks behind the last one. -/
def lexemes (L : Layout) : (i : Nat) → List Leaf → List Lexeme
  | _, [] => blankLexeme L.trail
  | i, l :: ls =>
    blankLexeme (L.gapAt i l) ++ ⟨.token l.kind, l.text.toList⟩ :: lexemes L (i + 1) ls

/-- A gap is cut off by itself. -/
theorem cut_gap {gap : List Char} (rest : List Char) (hgap : ∀ c ∈ gap, isBlank c = true)
    (hrest : ∀ c ∈ rest.head?, isBlank c = false) :
    Lexeme.cut [] 0 (gap ++ rest) = blankLexeme gap ++ Lexeme.cut [] 0 rest := by
  unfold blankLexeme
  split
  · next h => simp [h]
  · next h => rw [Lexeme.cut_blanks h hgap hrest, List.singleton_append]

theorem isBlank_gapAt (i : Nat) (l : Leaf) : ∀ c ∈ L.gapAt i l, isBlank c = true := by
  unfold gapAt
  split
  · simp
  · exact L.gap_blank i

/-- What is written behind a token does not go on with it. -/
theorem ends_spelledFrom {l : Leaf} {ls : List Leaf} {i : Nat} (hi : i ≠ 0)
    (hends : ∀ m ∈ ls.head?, m.tight = true → l.EndsBefore m)
    (hls : ∀ m ∈ ls.head?, m.text ≠ "") :
    ∀ c ∈ (L.spelledFrom i ls ++ L.trail).head?,
      if l.kind = .word then endsWord c = true else isQuiet c = true := by
  have hblank {c : Char} (h : isBlank c = true) :
      if l.kind = .word then endsWord c = true else isQuiet c = true := by
    split
    · exact endsWord_of_isBlank h
    · exact isQuiet_of_isBlank h
  intro c hc
  cases ls with
  | nil => exact hblank (L.trail_blank c (List.mem_of_mem_head? hc))
  | cons m ls =>
      cases htight : m.tight with
      | false =>
          have hne := L.apart i hi
          obtain ⟨d, ds, hd⟩ := List.exists_cons_of_ne_nil hne
          obtain rfl : d = c := by simpa [spelledFrom, gapAt, htight, hd] using hc
          exact hblank (L.gap_blank i d (hd ▸ List.mem_cons_self))
      | true =>
          refine hends m rfl htight c ?_
          cases htext : m.text.toList with
          | nil => exact absurd (String.toList_eq_nil_iff.mp htext) (hls m rfl)
          | cons d ds => simpa [spelledFrom, gapAt, htight, htext] using hc

/-- **Legible tokens are cut one by one.** -/
theorem cut_spelledFrom {ls : List Leaf} (h : Legible ls) (i : Nat) :
    Lexeme.cut [] 0 (L.spelledFrom i ls ++ L.trail) = L.lexemes i ls := by
  induction ls generalizing i with
  | nil =>
      have := cut_gap [] L.trail_blank (by simp)
      simpa [spelledFrom, lexemes, Lexeme.cut] using this
  | cons l ls ih =>
      obtain ⟨hsound, hends, hls⟩ := h
      have hne : ∀ m ∈ ls.head?, m.text ≠ "" := by
        intro m hm
        cases ls with
        | nil => exact absurd hm (by simp)
        | cons k ls =>
            obtain rfl := Option.some.inj hm
            exact hls.1.text_ne
      have hrest := ends_spelledFrom (L := L) (Nat.succ_ne_zero i) hends hne
      rw [spelledFrom, lexemes, List.append_assoc, List.append_assoc,
        cut_gap _ (isBlank_gapAt i l) (hsound.not_blank _), ← ih hls (i + 1)]
      congr 1
      rcases hsound with ⟨hkind, hword⟩ | ⟨hkind, c, hc, htext⟩
      · rw [hkind] at hrest ⊢
        exact Lexeme.cut_word (by rw [hword, String.length_toList]) hrest
      · rw [hkind] at hrest ⊢
        have hchars : l.text.toList = [c] := by simp [htext, Char.toString]
        rw [hchars]
        exact Lexeme.cut_mark hc hrest

/-! ### Tokens -/

/-- Where the token with a number starts, of all that are written. -/
def startIn (L : Layout) (all : List Leaf) (i : Nat) : Nat :=
  (L.spelledFrom 0 (all.take i)).length + (all[i]?.elim 0 fun l => (L.gapAt i l).length)

/-- Nothing trails behind written tokens. -/
theorem trail_lexemes (passed i : Nat) (ls : List Leaf) :
    Lexeme.trail passed 0 (L.lexemes i ls) = 0 := by
  cases ls with
  | nil =>
      unfold lexemes blankLexeme
      split <;> rfl
  | cons l ls =>
      unfold lexemes blankLexeme
      split <;> rfl

/-- The tokens of written lexemes are the written ones. -/
theorem ofLexemes_lexemes {all : List Leaf} (done : List Leaf) {ls : List Leaf} (hall : all = done ++ ls) :
    Token.ofLexemes (L.spelledFrom 0 done).length [] (L.lexemes done.length ls) =
      L.tokens (L.startIn all) done.length ls := by
  induction ls generalizing done with
  | nil =>
      unfold lexemes blankLexeme
      split <;> rfl
  | cons l ls ih =>
      have hstart : L.startIn all done.length =
          (L.spelledFrom 0 done).length + (L.gapAt done.length l).length := by
        simp [startIn, hall]
      have hnext := ih (done ++ [l]) (by simp [hall])
      rw [spelledFrom_append, List.length_append, List.length_append, List.length_singleton,
        Nat.zero_add] at hnext
      have hlength : (L.spelledFrom done.length [l]).length =
          (L.gapAt done.length l).length + l.text.length := by
        simp [spelledFrom, String.length_toList]
      rw [hlength] at hnext
      have htoken : L.token (L.startIn all) done.length l =
          ⟨l.kind, pieces (L.gapAt done.length l), l.text,
            (L.spelledFrom 0 done).length + (L.gapAt done.length l).length, 0⟩ := by
        rw [token, hstart]
      rw [tokens, ← hnext, htoken, lexemes]
      unfold blankLexeme pieces
      split
      · next hgap => simp [Token.ofLexemes, hgap, trail_lexemes, String.length_toList]
      · simp [Token.ofLexemes, trail_lexemes, String.length_toList, Nat.add_assoc]

/-- **The tokens of a printed outline** are the leaves of its forms. -/
theorem ofChars_print (L : Layout) (items : List Item) :
    Token.ofChars (L.print items).toList =
      L.tokens (L.startIn (leavesAll (itemForms items))) 0 (leavesAll (itemForms items)) := by
  rw [print, String.toList_ofList, Token.ofChars, Lexeme.ofChars,
    cut_spelledFrom (clear_items items).legible]
  exact ofLexemes_lexemes [] rfl

end Layout

end InteropStubs.Outline
