import InteropStubs.Proofs.Outline.Members

/-!
# Reading namespaces, interfaces and using directives

The headers of declarations, as phrases and as readers. What is between the braces is not looked into.

* `ends_usingDirective`, `ends_namespaceBlock`, `ends_interfaceType`: where the phrases end.
* `reads_namespaceBlock`, `reads_interface`: what is read of a declaration.
-/

namespace InteropStubs.Outline

open Phrase Rule Layout Reader

variable {L : Layout} {start : Nat → Nat} {i fuel : Nat} {h : Head} {stops : List Head}
  {rest : List Tree} {keywords : List String}

/-- What may follow a declaration. -/
def itemStops : List Head :=
  [.nothing, .word "using", .word "namespace", .word "interface"]

/-- A group in braces as it is laid out. -/
def block (L : Layout) (start : Nat → Nat) (i : Nat) (fs : List Form) : Tree :=
  plantOne L start i (.group false .curly fs)

theorem ends_touchingSemicolon (hrest : h.Begins rest) (hh : h ∈ itemStops) :
    Ends stops fuel touchingSemicolon rest rest := by
  have hrefuses : ∀ h ∈ itemStops, (touching ";").refuses h = true := by decide
  exact .right hrest (hrefuses h hh) (.absent hrest (hrefuses h hh))

theorem ends_closedBody (hrest : h.Begins rest) (hh : h ∈ itemStops) (i : Nat) (fs : List Form) :
    Ends stops fuel (closedBody (anyGroup .curly)) (block L start i fs :: rest) rest :=
  .next (.opens (leaves_empty.mpr rfl)) (ends_touchingSemicolon hrest hh)

/-! ### Using directives -/

/-- **A using directive** has one end. -/
theorem ends_usingDirective (n : Name) (hkeywords : ∀ k ∈ keywords, Words.mayBeName k = false)
    (rest : List Tree) :
    Ends [] fuel (usingDirectiveBut keywords)
      (plant L start i (Item.usingDirective n).forms ++ rest) rest := by
  have hfixed : ∀ k ∈ ["static", "unsafe"] ++ keywords, Words.mayBeName k = false := by
    intro k hk
    rcases List.mem_append.mp hk with hk | hk
    · exact (show ∀ k ∈ ["static", "unsafe"], Words.mayBeName k = false by decide) k hk
    · exact hkeywords k hk
  have hequals : ∀ h' ∈ .mark "." :: nameStops, (the "=").refuses h' = true := by decide
  rw [Item.forms, plant_cons, plant_append, List.cons_append, List.append_assoc]
  generalize hi : i + (Form.word "using").leaves.length = j
  generalize hk : j + (leavesAll n.forms).length = k
  have hsemicolon : (Head.mark ";").Begins (plant L start k [.mark ";"] ++ rest) := ⟨rfl, rfl⟩
  have hname : Head.name.Begins (plant L start j n.forms ++ (plant L start k [.mark ";"] ++ rest)) :=
    begins_identifier n.first false _
  have hnamed : Ends [.mark "."] fuel
      (Phrase.nameBut (["static", "unsafe"] ++ keywords) ++ the "=" ++ rule .type
        <|> qualifiedNameBut (["static", "unsafe"] ++ keywords))
      (plant L start j n.forms ++ (plant L start k [.mark ";"] ++ rest))
      (plant L start k [.mark ";"] ++ rest) := by
    refine .of_iff (fun mid => leaves_orElse.trans (or_iff_right fun hequation => ?_))
      (ends_qualifiedName n hfixed hsemicolon (by decide))
    -- no equals sign follows the first part of the name
    obtain ⟨us, hprefix, -⟩ := leaves_andThen.mp hequation
    obtain ⟨vs, hword, hmark⟩ := leaves_andThen.mp hprefix
    obtain rfl := (ends_nameBut n.first false hfixed).leaves_iff.mp hword
    obtain ⟨h', hmem, hbegins⟩ := begins_nameRest L start (j + 1) n.more hsemicolon (by decide)
    exact not_leaves hbegins (hequals h' hmem) hmark
  have husing (ts : List Tree) : (Head.word "using").Begins (plantOne L start i (.word "using") :: ts) :=
    ⟨rfl, rfl⟩
  refine Ends.andThen (?_ : Ends [.mark "."] fuel _ _ _) (ends_mark L start k false ";") (by decide)
  refine .right (husing _) rfl (.next (ends_word L start i "using") ?_)
  exact .right hname rfl (.right hname rfl hnamed)

/-! ### Namespaces -/

theorem plant_namespaceBlock (L : Layout) (start : Nat → Nat) (i : Nat) (n : Name)
    (items : List Item) : plant L start i (Item.namespaceBlock n items).forms =
      plantOne L start i (.word "namespace") :: (plant L start (i + 1) n.forms ++
        [block L start (i + 1 + (leavesAll n.forms).length) (itemForms items)]) := by
  rw [Item.forms, plant_cons, plant_append]
  rfl

theorem ends_namespaceName (n : Name) (hrest : h.Begins rest) (hstop : h ∈ nameStops) :
    Ends [.mark "."] fuel (the "namespace" ++ qualifiedNameBut [])
      (plantOne L start i (.word "namespace") :: (plant L start (i + 1) n.forms ++ rest)) rest :=
  .next (ends_word L start i "namespace") (ends_qualifiedName n (by simp) hrest hstop)

/-- **A namespace** has one end. -/
theorem ends_namespaceBlock (n : Name) (items : List Item) (hrest : h.Begins rest)
    (hh : h ∈ itemStops) :
    Ends [] fuel (Rule.namespaceBlock (anyGroup .curly))
      (plant L start i (Item.namespaceBlock n items).forms ++ rest) rest := by
  rw [plant_namespaceBlock, List.cons_append, List.append_assoc, List.singleton_append]
  generalize i + 1 + (leavesAll n.forms).length = j
  have hblock : (Head.group .curly).Begins (block L start j (itemForms items) :: rest) := rfl
  exact (ends_namespaceName n hblock (by decide)).andThen (ends_closedBody hrest hh _ _) (by decide)

theorem reads_qualifiedName (n : Name) (hrest : h.Begins rest) (hstop : h ∈ nameStops) (i : Nat) :
    Reads [.mark "."] (text (qualifiedNameBut [])) (plant L start i n.forms ++ rest) n.text rest := by
  rw [← verbatim_name L start i n]
  exact .text (ends_qualifiedName n (by simp) hrest hstop)

/-- **A namespace is read as it was written**, up to what is in its body. -/
theorem reads_namespaceBlock (i : Nat) (n : Name) (items : List Item) :
    Reads [] Reader.namespaceBlock (plant L start i (Item.namespaceBlock n items).forms)
      (n.text, plant L start (i + 1 + (leavesAll n.forms).length + 1) (itemForms items)) [] := by
  rw [plant_namespaceBlock]
  generalize i + 1 + (leavesAll n.forms).length = j
  have hblock : (Head.group .curly).Begins [block L start j (itemForms items)] := rfl
  have hnothing : Head.nothing.Begins [] := rfl
  refine (Reads.skip (ends_word L start i "namespace")).next <|
    (reads_qualifiedName n hblock (by decide) _).bind (fun h hh _ _ hb => ?_) <|
    (Reads.group _ _ _ _ _).next <|
    (Reads.skip (ends_touchingSemicolon hnothing (by decide))).next (.pure _ _)
  obtain rfl := List.mem_singleton.mp hh
  exact .first _ (.group hb (by decide))

/-! ### Bases -/

theorem ends_base (n : Name) (hrest : h.Begins rest) (hstop : h ∈ typeStops) :
    Ends breaks (fuel + 2) (rule .type) (plant L start i n.forms ++ rest) rest := by
  have htype : n.forms = (Returns.value ⟨.named n, .none⟩).forms := (List.append_nil _).symm
  rw [htype]
  exact ends_type _ hrest hstop

theorem reads_base (n : Name) (hrest : h.Begins rest) (hstop : h ∈ typeStops) :
    Reads breaks (text (rule .type)) (plant L start i n.forms ++ rest) n.text rest := by
  obtain ⟨k, hk⟩ := exists_ruleDepth (n := 2) (by decide) (plant L start i n.forms ++ rest)
  rw [← verbatim_name L start i n]
  exact .text (hk ▸ ends_base n hrest hstop)

/-- Where a list of bases can be left before its end. -/
def basesBreaks : List Head :=
  .mark "," :: breaks

theorem begins_listRest (L : Layout) (start : Nat → Nat) (i : Nat) (fs : List (List Form))
    (hrest : (Head.group .curly).Begins rest) :
    ∃ h ∈ typeStops, h.Begins (plant L start i (listRest fs) ++ rest) := by
  cases fs with
  | nil => exact ⟨.group .curly, by decide, hrest⟩
  | cons f fs => exact ⟨.mark ",", by decide, rfl, rfl⟩

theorem ends_basesRest (ns : List Name) (hrest : (Head.group .curly).Begins rest) :
    Ends basesBreaks (fuel + 2) (many (the "," ++ rule .type))
      (plant L start i (listRest (ns.map Name.forms)) ++ rest) rest := by
  induction ns generalizing i with
  | nil => exact .many hrest (by decide)
  | cons n ns ih =>
      obtain ⟨h, hmem, hbegins⟩ := begins_listRest L start (i + 1 + (leavesAll n.forms).length)
        (ns.map Name.forms) hrest
      have hforms : plant L start i (listRest ((n :: ns).map Name.forms)) ++ rest =
          plantOne L start i (.mark ",") :: (plant L start (i + 1) n.forms ++
            (plant L start (i + 1 + (leavesAll n.forms).length) (listRest (ns.map Name.forms)) ++ rest)) := by
        rw [← List.append_assoc, ← plant_append]
        rfl
      rw [hforms]
      exact .many_more (h := .mark ",") ⟨rfl, rfl⟩ List.mem_cons_self (by decide)
        (.next (ends_mark L start i false ",") (ends_base n hbegins hmem)) (by decide) ih

/-- **Bases** are left at their end, in front of a comma, or inside a name. -/
theorem ends_bases (n : Name) (ns : List Name) (hrest : (Head.group .curly).Begins rest) :
    Ends basesBreaks (fuel + 2) (Phrase.list (rule .type))
      (plant L start i (list ((n :: ns).map Name.forms)) ++ rest) rest := by
  obtain ⟨h, hmem, hbegins⟩ := begins_listRest L start (i + (leavesAll n.forms).length)
    (ns.map Name.forms) hrest
  rw [List.map_cons, list, plant_append, List.append_assoc]
  exact (ends_base n hbegins hmem).andThen (ends_basesRest ns hrest) (by decide)

theorem ends_baseList (ns : List Name) (hrest : (Head.group .curly).Begins rest) :
    Ends (.mark ":" :: basesBreaks) (fuel + 2) (Phrase.optional Rule.baseList)
      (plant L start i (baseList ns) ++ rest) rest := by
  cases ns with
  | nil => exact .optional hrest (by decide)
  | cons n ns =>
      refine .left_or_stop (h := .mark ":") ⟨rfl, rfl⟩ List.mem_cons_self rfl ?_
      refine Ends.andThen (?_ : Ends basesBreaks (fuel + 2) _ _ rest) (.optional hrest (by decide)) (by decide)
      exact .next (ends_mark L start i false ":") (ends_bases n ns hrest)

/-- What is kept of a base list. -/
def keptBases : List Name → Option (List String)
  | [] => none
  | ns => some (ns.map Name.text)

/-- Where bases are left too early, there are no parentheses. -/
theorem head?_ne_of_breaks {ts : List Tree} (hb : h.Begins ts) (hh : h ∈ breaks) (opening : Token)
    (inner : List Tree) (closing : Closing) : ts.head? ≠ some (.group .round opening inner closing) := by
  intro heq
  obtain ⟨rest, rfl⟩ := List.head?_eq_some_iff.mp heq
  simp only [breaks, List.mem_cons, List.not_mem_nil, or_false] at hh
  rcases hh with rfl | rfl | rfl
  · exact hb
  · exact hb
  · obtain ⟨_, _, _, _, hgroup⟩ := hb.exists_group
    simp at hgroup

/-- **Bases are read as they were written**, and elsewhere only a part of them. -/
theorem reads_bases (ns : List Name) (hrest : (Head.group .curly).Begins rest) :
    Reads breaks Reader.bases (plant L start i (baseList ns) ++ rest) (keptBases ns) rest := by
  cases ns with
  | nil => exact (Reads.isNotNext hrest rfl).next (.pure _ _)
  | cons n ns =>
      have htrees (ts : List Tree) : Reads [] Reader.bases.trees ts ts ts :=
        ⟨List.mem_singleton_self _, fun _ _ hmem => .inl (Prod.mk.inj (List.mem_singleton.mp hmem))⟩
      have hcolon : (Head.mark ":").Begins (plant L start i (baseList (n :: ns)) ++ rest) := ⟨rfl, rfl⟩
      have hlist (j bound : Nat) (hbound : ns.length < bound) :
          Reads breaks (separated (text (rule .type)) bound)
            (plant L start j (list ((n :: ns).map Name.forms)) ++ rest) ((n :: ns).map Name.text) rest :=
        reads_list (fun n i rest h hb hh => reads_base n hb (by rcases hh with rfl | rfl <;> decide))
          (by decide) rfl hrest n ns hbound
      have hforms : plant L start i (baseList (n :: ns)) ++ rest = plantOne L start i (.mark ":") ::
          (plant L start (i + 1) (list ((n :: ns).map Name.forms)) ++ rest) := rfl
      rw [hforms] at hcolon ⊢
      refine (Reads.isNext hcolon rfl).next <| (Reads.skip (ends_mark L start i false ":")).next <|
        (htrees _).next <| (hlist _ _ ?_).bind_stopping (fun h hh a left hb b after hmem => ?_) ?_
      · have hlength := length_lt_list Name.forms (x := n) (List.cons_ne_nil _ _) ns
        rw [List.length_append, length_plant]
        omega
      · obtain ⟨t, mid, hpeek, hafter⟩ := mem_bind.mp hmem
        obtain ⟨ht, rfl⟩ := mem_peek.mp hpeek
        split at hafter
        · exact absurd ht.symm (head?_ne_of_breaks hb hh _ _ _)
        · exact ⟨h, hh, (mem_pure.mp hafter).2 ▸ hb⟩
      · obtain ⟨_, _, _, _, rfl⟩ := hrest.exists_group
        exact (Reads.peek _).next (.pure _ _)

/-! ### Interfaces -/

theorem plant_interface (L : Layout) (start : Nat → Nat) (i : Nat) (x : Identifier) (ns : List Name)
    (ms : List Member) : plant L start i (Item.interface x ns ms).forms =
      plantOne L start i (.word "interface") :: plantOne L start (i + 1) (.word x.text) ::
        (plant L start (i + 1 + 1) (baseList ns) ++
          [block L start (i + 1 + 1 + (leavesAll (baseList ns)).length) (ms.flatMap Member.forms)]) := by
  rw [Item.forms, plant_cons, plant_cons, plant_append]
  rfl

/-- How what follows the name of an interface begins. -/
def headerStops : List Head :=
  [.mark ":", .group .curly]

theorem begins_baseList (L : Layout) (start : Nat → Nat) (i : Nat) (ns : List Name)
    (hrest : (Head.group .curly).Begins rest) :
    ∃ h ∈ headerStops, h.Begins (plant L start i (baseList ns) ++ rest) := by
  cases ns with
  | nil => exact ⟨.group .curly, by decide, hrest⟩
  | cons n ns => exact ⟨.mark ":", by decide, rfl, rfl⟩

theorem ends_interfaceWord (fuel i : Nat) (ts : List Tree) :
    Ends stops fuel (decorations ++ the "interface") (plantOne L start i (.word "interface") :: ts) ts := by
  have hword : (Head.word "interface").Begins (plantOne L start i (.word "interface") :: ts) := ⟨rfl, rfl⟩
  exact .next (.next (.many hword (by decide)) (.many hword (by decide)))
    (ends_word L start i "interface")

theorem refuses_typeParameters :
    ∀ h ∈ headerStops, (typeParametersBut []).refuses h = true := by decide

/-- **An interface** has one end. -/
theorem ends_interfaceType (x : Identifier) (ns : List Name) (ms : List Member) (hrest : h.Begins rest)
    (hh : h ∈ itemStops) :
    Ends [] (fuel + 2) (interfaceType (anyGroup .curly))
      (plant L start i (Item.interface x ns ms).forms ++ rest) rest := by
  rw [plant_interface, List.cons_append, List.cons_append, List.append_assoc, List.singleton_append]
  generalize i + 1 + 1 + (leavesAll (baseList ns)).length = j
  have hblock : (Head.group .curly).Begins (block L start j (ms.flatMap Member.forms) :: rest) := rfl
  obtain ⟨h', hmem, hbegins⟩ := begins_baseList L start (i + 1 + 1) ns hblock
  refine Ends.andThen (?_ : Ends (.mark ":" :: basesBreaks) (fuel + 2) _ _
    (block L start j (ms.flatMap Member.forms) :: rest))
    (.left hblock (by decide) (ends_closedBody hrest hh j _)) (by decide)
  refine Ends.andThen (?_ : Ends (.mark ":" :: basesBreaks) (fuel + 2) _ _
    (block L start j (ms.flatMap Member.forms) :: rest)) (.many hblock (by decide)) (by decide)
  refine .next (.next (.next (ends_interfaceWord (fuel + 2) i _) ?_)
    (.optional hbegins (refuses_typeParameters h' hmem))) (ends_baseList ns hblock)
  exact ends_nameBut x false (by simp)

/-- **An interface is read as it was written**, up to what is in its body. -/
theorem reads_interface (i : Nat) (x : Identifier) (ns : List Name) (ms : List Member) :
    Reads [] Reader.interface (plant L start i (Item.interface x ns ms).forms)
      (⟨x.text, keptBases ns⟩,
        plant L start (i + 1 + 1 + (leavesAll (baseList ns)).length + 1) (ms.flatMap Member.forms)) [] := by
  rw [plant_interface]
  generalize i + 1 + 1 + (leavesAll (baseList ns)).length = j
  have hblock : (Head.group .curly).Begins [block L start j (ms.flatMap Member.forms)] := rfl
  have hnothing : Head.nothing.Begins [] := rfl
  obtain ⟨h', hmem, hbegins⟩ := begins_baseList L start (i + 1 + 1) ns hblock
  have hend : Reads [] Reader.typeEnd [block L start j (ms.flatMap Member.forms)]
      (plant L start (j + 1) (ms.flatMap Member.forms)) [] :=
    (Reads.isNotNext hblock rfl).next <| (Reads.group _ _ _ _ _).next <|
      (Reads.skip (ends_touchingSemicolon hnothing (by decide))).next (.pure _ _)
  have hsemicolon : ∀ h ∈ breaks, h.admits (.text ";") = false := by decide
  have hbraces : ∀ h ∈ breaks, h ≠ .group .curly := by decide
  have hconstraints : ∀ h ∈ breaks, constraints.passes h = true := by decide
  refine (Reads.skip (ends_interfaceWord _ i _)).next <| (reads_name x _ (by simp)).next <|
    (Reads.skip (.optional hbegins (refuses_typeParameters h' hmem))).next <|
    (reads_bases ns hblock).bind (fun h hh bases left hb => ?_) <|
    (Reads.skip (.many hblock (by decide))).next <| hend.next (.pure _ _)
  -- behind a part of the bases there is no body
  have hfails : Fails Reader.typeEnd left :=
    .next (.isNotNext hb (hsemicolon h hh)) (.first _ (.group hb (hbraces h hh)))
  exact .next (.pass hb (hconstraints h hh) (leaves_many_refl _)) (.first _ hfails)

end InteropStubs.Outline
