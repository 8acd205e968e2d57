import InteropStubs.Proofs.Outline.Layout
import InteropStubs.Proofs.Phrase.Ends

/-!
# Names and types in the grammar

What the phrases of names and types take of names and types as they are written. A phrase may stop
early, but then it stops in front of a mark with which only a name or a type goes on (`breaks`); so
where something else is to follow, it takes the name or the type as a whole.

* `ends_qualifiedName`: qualified names.
* `ends_type`: types.
* `verbatim_name`, `verbatim_type`: they are written without gaps.
-/

namespace InteropStubs.Outline

open Phrase Rule Layout

/-- What may follow a type in an outline. -/
def typeStops : List Head :=
  [.name, .mark ",", .mark ";", .group .curly]

/-- What may follow a name in an outline: a suffix, or what follows a type. -/
def nameStops : List Head :=
  .mark "?" :: .group .square :: typeStops

/-- Where a name or a type can be left before its end. -/
def breaks : List Head :=
  [.mark ".", .mark "?", .group .square]

variable {L : Layout} {start : Nat → Nat} {i fuel : Nat} {h : Head} {keywords : List String}
  {stops : List Head} {rest : List Tree}

/-! ### Single tokens -/

theorem ends_the {l : Leaf} (hkind : l.kind = .word ∨ l.kind = .mark) :
    Ends stops fuel (the l.text) (.token (L.token start i l) :: rest) rest := by
  have hholds : (TokenClass.text l.text).holds (L.token start i l) = true := by
    rcases hkind with h | h <;> simp [TokenClass.holds, Token.isText, token, h]
  exact .one hholds

theorem ends_word (L : Layout) (start : Nat → Nat) (i : Nat) (w : String) :
    Ends stops fuel (the w) (.token (L.token start i ⟨false, .word, w⟩) :: rest) rest :=
  ends_the (l := ⟨false, .word, w⟩) (.inl rfl)

theorem ends_mark (L : Layout) (start : Nat → Nat) (i : Nat) (tight : Bool) (m : String) :
    Ends stops fuel (the m) (.token (L.token start i ⟨tight, .mark, m⟩) :: rest) rest :=
  ends_the (l := ⟨tight, .mark, m⟩) (.inr rfl)

theorem holds_nameBut (x : Identifier) (tight : Bool)
    (hkeywords : ∀ k ∈ keywords, Words.mayBeName k = false) :
    (TokenClass.nameBut keywords).holds (L.token start i ⟨tight, .word, x.text⟩) = true := by
  have hfree : x.text ∉ keywords := fun hmem =>
    absurd x.mayBeName (by simp [hkeywords _ hmem])
  simp [TokenClass.holds, token, hfree]

theorem ends_nameBut (x : Identifier) (tight : Bool)
    (hkeywords : ∀ k ∈ keywords, Words.mayBeName k = false) :
    Ends stops fuel (Phrase.nameBut keywords)
      (.token (L.token start i ⟨tight, .word, x.text⟩) :: rest) rest :=
  .one (holds_nameBut x tight hkeywords)

theorem begins_identifier (x : Identifier) (tight : Bool) (ts : List Tree) :
    Head.name.Begins (.token (L.token start i ⟨tight, .word, x.text⟩) :: ts) :=
  ⟨rfl, x.mayBeName⟩

/-! ### Names -/

/-- Behind the first part of a name there is a point, or what follows the name. -/
theorem begins_nameRest (L : Layout) (start : Nat → Nat) (i : Nat) (xs : List Identifier)
    (hrest : h.Begins rest) (hstop : h ∈ nameStops) :
    ∃ h' ∈ .mark "." :: nameStops, h'.Begins (plant L start i (nameRest xs) ++ rest) := by
  cases xs with
  | nil => exact ⟨h, List.mem_cons_of_mem _ hstop, hrest⟩
  | cons x xs => exact ⟨.mark ".", List.mem_cons_self, rfl, rfl⟩

theorem refuses_typeArguments :
    ∀ h ∈ Head.mark "." :: nameStops, (rule .typeArguments).refuses h = true := by decide

/-- A part of a name takes nothing behind its identifier. -/
theorem ends_simpleName {x : Identifier} {tight : Bool}
    (hkeywords : ∀ k ∈ keywords, Words.mayBeName k = false) (hrest : h.Begins rest)
    (harguments : (rule .typeArguments).refuses h = true) :
    Ends stops fuel (simpleNameBut keywords)
      (.token (L.token start i ⟨tight, .word, x.text⟩) :: rest) rest :=
  .next (ends_nameBut x tight hkeywords) (.optional hrest harguments)

theorem ends_nameRest (xs : List Identifier) (hrest : h.Begins rest) (hstop : h ∈ nameStops) :
    Ends [.mark "."] fuel (many (the "." ++ simpleName)) (plant L start i (nameRest xs) ++ rest)
      rest := by
  have hrefuses : ∀ h' ∈ nameStops, (the "." ++ simpleName).refuses h' = true := by decide
  induction xs generalizing i with
  | nil => exact .many hrest (hrefuses h hstop)
  | cons x xs ih =>
      obtain ⟨h', hmem, hbegins⟩ := begins_nameRest L start (i + 1 + 1) xs hrest hstop
      have hpart : Ends [] fuel (the "." ++ simpleName) (plant L start i (nameRest (x :: xs)) ++ rest)
          (plant L start (i + 1 + 1) (nameRest xs) ++ rest) :=
        .next (ends_mark L start i true ".")
          (ends_simpleName (by simp) hbegins (refuses_typeArguments h' hmem))
      exact .many_more (h := .mark ".") ⟨rfl, rfl⟩ List.mem_cons_self (by decide) hpart (by simp) ih

/-- **A qualified name** is left at its end, or in front of a point. -/
theorem ends_qualifiedName (n : Name) (hkeywords : ∀ k ∈ keywords, Words.mayBeName k = false)
    (hrest : h.Begins rest) (hstop : h ∈ nameStops) :
    Ends [.mark "."] fuel (qualifiedNameBut keywords) (plant L start i n.forms ++ rest) rest := by
  obtain ⟨h', hmem, hbegins⟩ := begins_nameRest L start (i + 1) n.more hrest hstop
  have hcolons : ∀ h' ∈ .mark "." :: nameStops, (the "::").refuses h' = true := by decide
  have hfirst : Ends [] fuel (nameBut keywords ++ the "::" ++ simpleName <|> simpleNameBut keywords)
      (plant L start i n.forms ++ rest) (plant L start (i + 1) (nameRest n.more) ++ rest) := by
    refine .of_iff (fun mid => leaves_orElse.trans (or_iff_right fun halias => ?_))
      (ends_simpleName hkeywords hbegins (refuses_typeArguments h' hmem))
    -- no alias: a double colon does not follow
    obtain ⟨us, hprefix, -⟩ := leaves_andThen.mp halias
    obtain ⟨vs, hword, hmark⟩ := leaves_andThen.mp hprefix
    obtain rfl := (ends_nameBut n.first false hkeywords).leaves_iff.mp hword
    exact not_leaves hbegins (hcolons h' hmem) hmark
  exact hfirst.next (ends_nameRest n.more hrest hstop)

/-! ### Types -/

/-- How types begin. -/
def typeHeads : List Head :=
  .name :: Words.predefined.map .word

/-- Forms that are a type without a suffix. Where nothing is returned, there is a type, too. -/
inductive Plain : List Form → Prop where
  | named (n : Name) : Plain n.forms
  | predefined {w : String} (hw : w ∈ Words.predefined) : Plain [.word w]

theorem PlainType.plain (t : PlainType) : Plain t.forms := by
  cases t with
  | named n => exact .named n
  | builtIn w hw => exact .predefined (List.mem_of_mem_erase hw)

/-- What stands in front of the name of a method is a type with a suffix. -/
theorem Returns.forms_eq (r : Returns) : ∃ fs s, Plain fs ∧ r.forms = fs ++ Suffix.forms s := by
  cases r with
  | nothing => exact ⟨[.word "void"], .none, .predefined (by decide), rfl⟩
  | value t => exact ⟨_, t.suffix, t.plain.plain, rfl⟩

theorem Returns.forms_ne_nil (r : Returns) : r.forms ≠ [] := by
  obtain ⟨fs, s, hfs, heq⟩ := r.forms_eq
  cases hfs <;> simp [heq, Name.forms]

theorem begins_plain {fs : List Form} (hfs : Plain fs) (L : Layout) (start : Nat → Nat) (i : Nat)
    (ts : List Tree) : ∃ h ∈ typeHeads, h.Begins (plant L start i fs ++ ts) := by
  cases hfs with
  | named n => exact ⟨.name, List.mem_cons_self, begins_identifier n.first false _⟩
  | @predefined w hw =>
      exact ⟨.word w, List.mem_cons_of_mem _ (List.mem_map.mpr ⟨w, hw, rfl⟩), rfl, rfl⟩

theorem begins_type (L : Layout) (start : Nat → Nat) (i : Nat) (r : Returns) (ts : List Tree) :
    ∃ h ∈ typeHeads, h.Begins (plant L start i r.forms ++ ts) := by
  obtain ⟨fs, s, hfs, heq⟩ := r.forms_eq
  rw [heq, plant_append, List.append_assoc]
  exact begins_plain hfs L start i _

theorem ends_namedType {fs : List Form} (hfs : Plain fs) (hrest : h.Begins rest)
    (hstop : h ∈ nameStops) : Ends [.mark "."] fuel namedType (plant L start i fs ++ rest) rest := by
  cases hfs with
  | named n =>
      have hbegins : Head.name.Begins (plant L start i n.forms ++ rest) :=
        begins_identifier n.first false _
      exact .right hbegins (by decide) <| .right hbegins (by decide) <|
        .next (.absent hbegins (by decide)) (ends_qualifiedName n (by decide) hrest hstop)
  | @predefined w hw =>
      have hothers : ∀ w ∈ Words.predefined, (parens tupleElements
          <|> Phrase.absent (the "scoped" ++ oneOf Words.typeStart)
            ++ qualifiedNameBut Words.typeStart).refuses (.word w) = true := by decide
      exact .left (h := .word w) ⟨rfl, rfl⟩ (hothers w hw)
        (.one (by simpa [TokenClass.holds, token] using hw))

theorem begins_suffix (L : Layout) (start : Nat → Nat) (i : Nat) (s : Suffix)
    (hrest : h.Begins rest) (hstop : h ∈ typeStops) :
    ∃ h' ∈ nameStops, h'.Begins (plant L start i s.forms ++ rest) := by
  cases s with
  | none => exact ⟨h, List.mem_cons_of_mem _ (List.mem_cons_of_mem _ hstop), hrest⟩
  | nullable => exact ⟨.mark "?", by decide, rfl, rfl⟩
  | array => exact ⟨.group .square, by decide, rfl⟩

/-- A suffix is left at its end or where it begins. -/
theorem ends_suffix (s : Suffix) (hrest : h.Begins rest) (hstop : h ∈ typeStops) :
    Ends breaks fuel (pointers ++ ranks) (plant L start i s.forms ++ rest) rest := by
  have hall : ∀ h ∈ typeStops, nullable.refuses h = true ∧ (the "*").refuses h = true ∧
      (rank ++ Phrase.optional nullable).refuses h = true := by decide
  obtain ⟨hnullable, hstar, hrank⟩ := hall h hstop
  cases s with
  | none => exact .next (.right hrest hnullable (.many hrest hstar)) (.many hrest hrank)
  | nullable =>
      have hmark : Ends [.mark "?"] fuel nullable (plant L start i Suffix.nullable.forms ++ rest) rest :=
        .next (ends_mark L start i true "?") (.many hrest hstar)
      have hpointers : Ends [.mark "?"] fuel pointers (plant L start i Suffix.nullable.forms ++ rest)
          rest :=
        .left_or_stop (h := .mark "?") ⟨rfl, rfl⟩ List.mem_cons_self (by decide) hmark
      exact hpointers.andThen (.many hrest hrank) (by decide)
  | array =>
      have hgroup : (Head.group .square).Begins (plant L start i Suffix.array.forms ++ rest) := rfl
      have hsize : Leaves fuel (Phrase.optional (rule .expression)
          ++ many (the "," ++ Phrase.optional (rule .expression))) [] [] :=
        leaves_andThen.mpr ⟨[], leaves_optional.mpr (.inr rfl), leaves_many_refl _⟩
      have hone : Ends [] fuel (rank ++ Phrase.optional nullable)
          (plant L start i Suffix.array.forms ++ rest) rest :=
        .next (.within hsize) (.optional hrest hnullable)
      exact .next (.right hgroup (by decide) (.many hgroup (by decide))) <|
        .many_more hgroup (by decide) (by decide) hone (by simp) (.many hrest hrank)

/-- **A type** is left at its end, or in front of what it goes on with. -/
theorem ends_type (r : Returns) (hrest : h.Begins rest) (hstop : h ∈ typeStops) :
    Ends breaks (fuel + 2) (rule .type) (plant L start i r.forms ++ rest) rest := by
  obtain ⟨h₀, hh₀, hbegins⟩ := begins_type L start i r rest
  have hothers : ∀ h ∈ typeHeads,
      (the "ref" ++ (the "readonly" ++ rule .type <|> notAt ["readonly"] (rule .type))).refuses h = true
      ∧ (the "scoped" ++ rule .type).refuses h = true
      ∧ (functionPointer ++ many (the "*") ++ ranks).refuses h = true := by decide
  obtain ⟨href, hscoped, hfunction⟩ := hothers h₀ hh₀
  have hvalue : Ends breaks fuel (namedType ++ pointers ++ ranks) (plant L start i r.forms ++ rest)
      rest := by
    obtain ⟨fs, s, hfs, heq⟩ := r.forms_eq
    obtain ⟨h', hmem, hsuffix⟩ := begins_suffix L start (i + (leavesAll fs).length) s hrest hstop
    rw [heq, plant_append, List.append_assoc]
    exact .assoc <| (ends_namedType hfs hsuffix hmem).andThen (ends_suffix s hrest hstop) (by decide)
  exact .rule <| .right hbegins href <| .right hbegins hscoped <| .rule <|
    .left hbegins hfunction hvalue

/-! ### Texts -/

theorem leavesAll_nameRest (xs : List Identifier) :
    leavesAll (nameRest xs) = xs.flatMap fun x => [⟨true, .mark, "."⟩, ⟨true, .word, x.text⟩] := by
  induction xs with
  | nil => rfl
  | cons x xs ih => simpa [nameRest, Form.nextMark, Form.nextWord, Form.leaves] using ih

@[simp] theorem verbatim_name (L : Layout) (start : Nat → Nat) (i : Nat) (n : Name) :
    Tree.verbatim (plant L start i n.forms) = n.text := by
  have htight : ∀ l ∈ leavesAll (nameRest n.more), l.tight = true := by
    simp only [leavesAll_nameRest, List.mem_flatMap]
    rintro l ⟨x, -, hl⟩
    simp only [List.mem_cons, List.not_mem_nil, or_false] at hl
    rcases hl with rfl | rfl <;> rfl
  rw [show n.forms = [.word n.first.text] ++ nameRest n.more from rfl,
    verbatim_plant_append (by simp [Form.word, Form.leaves]) htight, verbatim_plant,
    leavesAll_nameRest, Name.text, ← String.toList_inj]
  simp [Form.word, Form.leaves, spelled, spelledFrom, List.flatMap_map, List.flatMap_assoc]

@[simp] theorem verbatim_type (L : Layout) (start : Nat → Nat) (i : Nat) (r : Returns) :
    Tree.verbatim (plant L start i r.forms) = r.text := by
  cases r with
  | nothing => rfl
  | value t =>
      obtain ⟨plain, suffix⟩ := t
      have htight : ∀ l ∈ leavesAll suffix.forms, l.tight = true := by cases suffix <;> decide
      have hsuffix : String.join ((leavesAll suffix.forms).map Leaf.text) = suffix.text := by
        cases suffix <;> rfl
      have hplain : leavesAll plain.forms ≠ [] ∧
          Tree.verbatim (plant L start i plain.forms) = plain.text := by
        cases plain with
        | named n =>
            refine ⟨?_, verbatim_name L start i n⟩
            simp [PlainType.forms, Name.forms, Form.word, Form.leaves]
        | builtIn w hw =>
            refine ⟨by simp [PlainType.forms, Form.word, Form.leaves], ?_⟩
            rw [verbatim_plant]
            simp [PlainType.forms, PlainType.text, Form.word, Form.leaves, spelled, spelledFrom]
      rw [Returns.forms, ValueType.forms, verbatim_plant_append hplain.1 htight, hplain.2, hsuffix]
      rfl

end InteropStubs.Outline
