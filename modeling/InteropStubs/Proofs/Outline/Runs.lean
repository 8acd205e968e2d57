import InteropStubs.Proofs.Node.Cut
import InteropStubs.Proofs.Outline.Headers

/-!
# Cutting outlines into runs

In a list of declarations one after the other, every declaration is a run. In a body a declaration ends
at its semicolon or behind its braces; in a file it ends where the phrase for what may stand in a file
ends, and this phrase has one end (`ends_fileItem`).

* `runs_items`, `runs_members`: the runs of items and of members.
-/

namespace InteropStubs.Outline

open Phrase Rule Layout

variable {L : Layout} {start : Nat → Nat} {i fuel : Nat} {h : Head} {rest mid : List Tree}

/-! ### Declarations are no statements -/

theorem not_leaves_fileStatement_namespace (ts : List Tree) :
    ¬ Leaves fuel fileStatement (plantOne L start i (.word "namespace") :: ts) mid :=
  not_leaves_fileStatement (leaves_orElse.mpr (.inl (ends_word L start i "namespace" : Ends [] fuel _ _ _).leaves))

theorem not_leaves_fileStatement_interface (ts : List Tree) :
    ¬ Leaves fuel fileStatement (plantOne L start i (.word "interface") :: ts) mid := by
  have hword : Leaves fuel (the "interface") (plantOne L start i (.word "interface") :: ts) ts :=
    leaves_one.mpr ⟨_, rfl, rfl⟩
  exact not_leaves_fileStatement (leaves_orElse.mpr (.inr (leaves_andThen.mpr
    ⟨_, leaves_andThen.mpr ⟨_, leaves_many_refl _, leaves_many_refl _⟩, hword⟩)))

theorem plant_usingDirective (L : Layout) (start : Nat → Nat) (i : Nat) (n : Name) :
    ∃ k, plant L start i (Item.usingDirective n).forms =
      plantOne L start i (.word "using") :: (plant L start (i + 1) n.forms ++ plant L start k [.mark ";"]) :=
  ⟨_, by rw [Item.forms, plant_cons, plant_append]; rfl⟩

/-- A using directive without parentheses is no statement. -/
theorem not_leaves_statement_using (n : Name) (rest : List Tree) :
    ¬ Leaves (fuel + 3) (rule .statement) (plant L start i (Item.usingDirective n).forms ++ rest) mid := by
  obtain ⟨k, hforms⟩ := plant_usingDirective L start i n
  rw [hforms, List.cons_append, List.append_assoc]
  intro hl
  have husing (ts : List Tree) : (Head.word "using").Begins (plantOne L start i (.word "using") :: ts) :=
    ⟨rfl, rfl⟩
  have hsemicolon : (Head.mark ";").Begins (plant L start k [.mark ";"] ++ rest) := ⟨rfl, rfl⟩
  have hname : Head.name.Begins (plant L start (i + 1) n.forms ++ (plant L start k [.mark ";"] ++ rest)) :=
    begins_identifier n.first false _
  have hopen : ∃ resource, resource.refuses .name = true ∧
      Rule.statement.phrase.openAt (.word "using") =
        [Phrase.optional (the "await") ++ the "using" ++ resource ++ rule .statement,
          disposedVariables] := ⟨_, by decide, rfl⟩
  have hstart (ts : List Tree) : Ends [] (fuel + 2) (Phrase.optional (the "await") ++ the "using")
      (plantOne L start i (.word "using") :: ts) ts :=
    .next (.optional (husing ts) (by decide)) (ends_word L start i "using")
  obtain ⟨resource, hresource, hopen⟩ := hopen
  obtain ⟨q, hq, hl⟩ := exists_openAt (husing _) (leaves_rule.mp hl)
  rw [hopen] at hq
  simp only [List.mem_cons, List.not_mem_nil, or_false] at hq
  rcases hq with rfl | rfl
  · -- a statement with a resource, which would be in parentheses
    obtain ⟨us, hl, -⟩ := leaves_andThen.mp hl
    obtain ⟨vs, hword, hl⟩ := leaves_andThen.mp hl
    obtain rfl := (hstart _).leaves_iff.mp hword
    exact not_leaves hname hresource hl
  · -- variables, which would have names behind their type
    obtain ⟨us, hl, -⟩ := leaves_andThen.mp hl
    obtain ⟨vs, hl, hvariables⟩ := leaves_andThen.mp hl
    have htype : Ends breaks (fuel + 2)
        (Phrase.optional (the "await") ++ the "using" ++ many modifier ++ decoratedType) _ _ :=
      .next (.next (hstart _) (.many hname (by decide)))
        (.next (.absent hname (by decide)) (ends_base n hsemicolon (by decide)))
    have hbreaks : ∀ h ∈ breaks, (declaratorsBut [] []).refuses h = true := by decide
    rcases htype.only vs hl with rfl | ⟨h, hh, hb⟩
    · exact not_leaves hsemicolon (by decide) hvariables
    · exact not_leaves hb (hbreaks h hh) hvariables

/-! ### What stands in a file -/

/-- A namespace with braces does not go to the end of the file. -/
theorem not_leaves_fileScopedNamespace (n : Name) (items : List Item) (rest : List Tree) :
    ¬ Leaves fuel fileScopedNamespace
      (plant L start i (Item.namespaceBlock n items).forms ++ rest) mid := by
  rw [plant_namespaceBlock, List.cons_append, List.append_assoc, List.singleton_append]
  generalize i + 1 + (leavesAll n.forms).length = j
  have hblock : (Head.group .curly).Begins (block L start j (itemForms items) :: rest) := rfl
  intro hl
  obtain ⟨us, hl, hmark⟩ := leaves_andThen.mp hl
  rcases (ends_namespaceName n hblock (by decide)).only us hl with rfl | ⟨h, hh, hb⟩
  · exact not_leaves hblock (by decide) hmark
  · obtain rfl := List.mem_singleton.mp hh
    exact not_leaves hb (by decide) hmark

/-- An interface among the types of a file. -/
theorem ends_fileType (x : Identifier) (ns : List Name) (ms : List Member) (hrest : h.Begins rest)
    (hh : h ∈ itemStops) :
    Ends [] (fuel + 2) (fileType (anyGroup .curly))
      (plant L start i (Item.interface x ns ms).forms ++ rest) rest := by
  have hword : (Head.word "interface").Begins (plant L start i (Item.interface x ns ms).forms ++ rest) :=
    ⟨rfl, rfl⟩
  refine .next (.next (.absent hword (by decide)) (.absent hword (by decide))) ?_
  exact .choice [] [] hword rfl (ends_interfaceType x ns ms hrest hh) (by simp)

/-- **What may stand in a file** has one end where a declaration is followed by another one or by
nothing. -/
theorem ends_fileItem (x : Item) (hrest : h.Begins rest) (hh : h ∈ itemStops) :
    Ends [] (fuel + 3) (fileItemWith (anyGroup .curly)) (plant L start i x.forms ++ rest) rest := by
  cases x with
  | usingDirective n =>
      have hword : (Head.word "using").Begins (plant L start i (Item.usingDirective n).forms ++ rest) :=
        ⟨rfl, rfl⟩
      refine .choice [] [fileStatement] hword rfl (ends_usingDirective n (by decide) rest) fun q hq mid hl => ?_
      obtain rfl := List.mem_singleton.mp hq
      exact not_leaves_statement_using n rest (of_leaves_fileStatement hl).2
  | namespaceBlock n items =>
      have hword : (Head.word "namespace").Begins
          (plant L start i (Item.namespaceBlock n items).forms ++ rest) := ⟨rfl, rfl⟩
      refine .choice [fileScopedNamespace] [fileStatement] hword rfl (ends_namespaceBlock n items hrest hh)
        fun q hq mid hl => ?_
      rcases List.mem_cons.mp hq with rfl | hq
      · exact not_leaves_fileScopedNamespace n items rest hl
      · obtain rfl := List.mem_singleton.mp hq
        exact not_leaves_fileStatement_namespace _ hl
  | interface x ns ms =>
      have hword : (Head.word "interface").Begins
          (plant L start i (Item.interface x ns ms).forms ++ rest) := ⟨rfl, rfl⟩
      refine .choice [] [fileStatement] hword rfl (ends_fileType x ns ms hrest hh) fun q hq mid hl => ?_
      obtain rfl := List.mem_singleton.mp hq
      exact not_leaves_fileStatement_interface _ hl

/-- So it does with the fuel that a list is given. -/
theorem ends_fileItem_ruleDepth (L : Layout) (start : Nat → Nat) (i : Nat) (x : Item)
    (hrest : h.Begins rest) (hh : h ∈ itemStops) :
    Ends [] (Tree.ruleDepth (plant L start i x.forms ++ rest)) (fileItemWith (anyGroup .curly))
      (plant L start i x.forms ++ rest) rest := by
  obtain ⟨k, hk⟩ := exists_ruleDepth (n := 3) (by decide) (plant L start i x.forms ++ rest)
  rw [hk]
  exact ends_fileItem x hrest hh

/-- The size of what stands in a file. -/
theorem fileItemSize?_item (L : Layout) (start : Nat → Nat) (i : Nat) (x : Item)
    (hrest : h.Begins rest) (hh : h ∈ itemStops) :
    Run.fileItemSize? (plant L start i x.forms ++ rest) = some x.forms.length := by
  have hends := ends_fileItem_ruleDepth L start i x hrest hh
  have hall := hends.length_eq
  rw [length_plant] at hall
  obtain ⟨n, hn, -⟩ := hends.leaves
  unfold Run.fileItemSize?
  cases hlast : ((fileItemWith (anyGroup .curly)).sizes (plant L start i x.forms ++ rest)).getLast? with
  | none =>
      rw [List.getLast?_eq_none_iff] at hlast
      exact absurd hlast (List.ne_nil_of_mem hn)
  | some m => rw [hall m (List.mem_of_getLast? hlast)]

/-- An item fits what stands in a file as a whole. -/
theorem fits_fileItem (L : Layout) (start : Nat → Nat) (i : Nat) (x : Item) :
    (fileItemWith (anyGroup .curly)).fits (plant L start i x.forms) = true := by
  have hnothing : Head.nothing.Begins [] := rfl
  have hends := ends_fileItem_ruleDepth L start i x hnothing (by decide)
  rw [List.append_nil] at hends
  exact hends.fits

/-! ### Where declarations end -/

/-- Forms inside a declaration: whether its end is looked for behind them. -/
def Form.passed : Form → Bool
  | .leaf l => !List.contains [";", "=", "=>"] l.text
  | .group _ b _ => b != .curly

/-- The forms with which declarations end. -/
def Form.closes : Form → Bool
  | .leaf l => l.kind == .mark && l.text == ";"
  | .group _ b _ => b == .curly

/-- Forms that end with a semicolon or with braces, and not before. -/
def Closes (fs : List Form) : Prop :=
  ∃ front last, fs = front ++ [last] ∧ (∀ f ∈ front, f.passed = true) ∧ last.closes = true

theorem passed_identifier (x : Identifier) (tight : Bool) :
    (Form.leaf ⟨tight, .word, x.text⟩).passed = true := by
  have hmarks : ∀ m ∈ [";", "=", "=>"], Words.mayBeName m = false := by decide
  have hfree : x.text ∉ [";", "=", "=>"] := fun hmem => absurd x.mayBeName (by simp [hmarks _ hmem])
  simpa [Form.passed] using hfree

theorem passed_name (n : Name) : ∀ f ∈ n.forms, f.passed = true := by
  intro f hf
  rcases List.mem_cons.mp hf with rfl | hf
  · exact passed_identifier n.first false
  · obtain ⟨x, -, hf⟩ := List.mem_flatMap.mp hf
    simp only [List.mem_cons, List.not_mem_nil, or_false] at hf
    rcases hf with rfl | rfl
    · rfl
    · exact passed_identifier x true

theorem passed_type (r : Returns) : ∀ f ∈ r.forms, f.passed = true := by
  obtain ⟨fs, s, hfs, heq⟩ := r.forms_eq
  intro f hf
  rw [heq] at hf
  rcases List.mem_append.mp hf with hf | hf
  · cases hfs with
    | named n => exact passed_name n f hf
    | predefined hw =>
        have hall : ∀ w ∈ Words.predefined, (Form.word w).passed = true := by decide
        obtain rfl := List.mem_singleton.mp hf
        exact hall _ hw
  · cases s <;> simp [Suffix.forms] at hf <;> subst hf <;> rfl

/-- A member closes with its semicolon or its braces. -/
theorem closes_member (m : Member) : Closes m.forms := by
  cases m with
  | method r x ps =>
      refine ⟨r.forms ++ [.word x.text, parameterList ps], .mark ";", by simp [Member.forms], ?_, rfl⟩
      intro f hf
      rcases List.mem_append.mp hf with hf | hf
      · exact passed_type r f hf
      · simp only [List.mem_cons, List.not_mem_nil, or_false] at hf
        rcases hf with rfl | rfl
        · exact passed_identifier x false
        · rfl
  | property t x a as =>
      refine ⟨t.forms ++ [.word x.text], _, by rw [Member.forms, List.append_assoc]; rfl, ?_, rfl⟩
      intro f hf
      rcases List.mem_append.mp hf with hf | hf
      · exact passed_type (.value t) f hf
      · obtain rfl := List.mem_singleton.mp hf
        exact passed_identifier x false

theorem passed_baseList (ns : List Name) : ∀ f ∈ baseList ns, f.passed = true := by
  cases ns with
  | nil => exact nofun
  | cons n ns =>
      intro f hf
      rcases List.mem_cons.mp hf with rfl | hf
      · rfl
      · rcases List.mem_append.mp hf with hf | hf
        · exact passed_name n f hf
        · obtain ⟨gs, hgs, hf⟩ := List.mem_flatMap.mp hf
          obtain ⟨m, -, rfl⟩ := List.mem_map.mp hgs
          rcases List.mem_cons.mp hf with rfl | hf
          · rfl
          · exact passed_name m f hf

/-- An item does so, too. -/
theorem closes_item (x : Item) : Closes x.forms := by
  cases x with
  | usingDirective n =>
      refine ⟨.word "using" :: n.forms, .mark ";", rfl, ?_, rfl⟩
      exact List.forall_mem_cons.mpr ⟨rfl, passed_name n⟩
  | namespaceBlock n items =>
      refine ⟨.word "namespace" :: n.forms, _, rfl, ?_, rfl⟩
      exact List.forall_mem_cons.mpr ⟨rfl, passed_name n⟩
  | interface x ns ms =>
      refine ⟨.word "interface" :: .word x.text :: baseList ns, _, rfl, ?_, rfl⟩
      exact List.forall_mem_cons.mpr ⟨rfl, List.forall_mem_cons.mpr
        ⟨passed_identifier x false, passed_baseList ns⟩⟩

theorem isPassed_plantOne (L : Layout) (start : Nat → Nat) (i : Nat) {f : Form} (hf : f.passed = true) :
    Run.isPassed (plantOne L start i f) = true := by
  cases f with
  | leaf l =>
      have hnone : ¬ l.text = ";" ∧ ¬ l.text = "=" ∧ ¬ l.text = "=>" := by simpa [Form.passed] using hf
      simp [plantOne, Run.isPassed, Tree.isText, Tree.isGroup, Token.isText, hnone]
  | group tight b inner => simpa [plantOne, Run.isPassed, Tree.isText, Tree.isGroup, Form.passed] using hf

theorem isPassed_plant (L : Layout) (start : Nat → Nat) (i : Nat) {fs : List Form}
    (hfs : ∀ f ∈ fs, f.passed = true) : ∀ t ∈ plant L start i fs, Run.isPassed t = true := by
  induction fs generalizing i with
  | nil => exact nofun
  | cons f fs ih =>
      obtain ⟨hf, hfs⟩ := List.forall_mem_cons.mp hfs
      rw [plant_cons]
      exact List.forall_mem_cons.mpr ⟨isPassed_plantOne L start i hf, ih _ hfs⟩

theorem parted_of_begins (hrest : h.Begins rest) (hequals : h.admits (.text "=") = false)
    (hsemicolon : h.admits (.text ";") = false) : Tree.Parted rest := by
  cases rest with
  | nil => exact nofun
  | cons t rest =>
      intro u hu
      obtain rfl := Option.some.inj hu
      exact ⟨hrest.isText_eq_false hsemicolon, hrest.isText_eq_false hequals⟩

/-- **A declaration in a body** ends where it closes. -/
theorem declarationSize_closes (L : Layout) (start : Nat → Nat) (i : Nat) {fs : List Form}
    (hfs : Closes fs) (hrest : h.Begins rest) (hequals : h.admits (.text "=") = false)
    (hsemicolon : h.admits (.text ";") = false) :
    Run.declarationSize false (plant L start i fs ++ rest) = fs.length := by
  obtain ⟨front, last, rfl, hfront, hlast⟩ := hfs
  rw [plant_append, List.append_assoc, Run.declarationSize_append (isPassed_plant L start i hfront),
    length_plant, List.length_append, List.length_singleton]
  congr 1
  cases last with
  | leaf l =>
      simp only [Form.closes, Bool.and_eq_true, beq_iff_eq] at hlast
      simp [plantOne, Run.declarationSize, Tree.isText, Token.isText, token, hlast]
  | group tight bracket inner =>
      simp only [Form.closes, beq_iff_eq] at hlast
      simp [plantOne, Run.declarationSize, Tree.isText, Tree.isGroup, hlast,
        Run.behindBody_eq_zero (parted_of_begins hrest hequals hsemicolon)]

/-! ### Runs -/

/-- Several declarations, one after the other, each as the trees that it is laid out in. -/
def plantEach (L : Layout) (start : Nat → Nat) : (i : Nat) → List (List Form) → List (List Tree)
  | _, [] => []
  | i, fs :: fss => plant L start i fs :: plantEach L start (i + (leavesAll fs).length) fss

theorem runs_body {fs : List Form} {w : String} (hfs : Closes (.word w :: fs)) (hrest : h.Begins rest)
    (hequals : h.admits (.text "=") = false) (hsemicolon : h.admits (.text ";") = false) :
    Tree.runs .body (plant L start i (.word w :: fs) ++ rest) =
      plant L start i (.word w :: fs) :: Tree.runs .body rest := by
  have hsize : Run.size .body (plantOne L start i (.word w)) (plant L start (i + 1) fs ++ rest) =
      (plant L start (i + 1) fs).length + 1 := by
    have hclose := declarationSize_closes L start i hfs hrest hequals hsemicolon
    rw [length_plant]
    exact hclose
  exact Node.runs_append hsize

theorem runs_file {x : Item} {fs : List Form} {w : String} (hx : x.forms = .word w :: fs)
    (hrest : h.Begins rest) (hh : h ∈ itemStops) :
    Tree.runs .file (plant L start i (.word w :: fs) ++ rest) =
      plant L start i (.word w :: fs) :: Tree.runs .file rest := by
  have hsize : Run.size .file (plantOne L start i (.word w)) (plant L start (i + 1) fs ++ rest) =
      (plant L start (i + 1) fs).length + 1 := by
    have hitem := fileItemSize?_item L start i x hrest hh
    rw [hx] at hitem
    have hfile : Run.size .file (plantOne L start i (.word w)) (plant L start (i + 1) fs ++ rest) =
        (Run.fileItemSize? (plant L start i (.word w :: fs) ++ rest)).getD
          (Run.declarationSize false (plant L start i (.word w :: fs) ++ rest)) := rfl
    rw [hfile, hitem, length_plant]
    rfl
  exact Node.runs_append hsize

theorem Item.forms_eq_word (x : Item) : ∃ w fs, x.forms = .word w :: fs := by
  cases x <;> exact ⟨_, _, rfl⟩

theorem Member.forms_eq_word (m : Member) : ∃ w fs, m.forms = .word w :: fs := by
  have hreturns (r : Returns) : ∃ w fs, r.forms = .word w :: fs := by
    obtain ⟨_, _, hfs, heq⟩ := r.forms_eq
    cases hfs with
    | named n => exact ⟨_, _, heq⟩
    | predefined hw => exact ⟨_, _, heq⟩
  cases m with
  | method r x ps =>
      obtain ⟨w, fs, hr⟩ := hreturns r
      exact ⟨w, _, by rw [Member.forms, hr]; rfl⟩
  | property t x a as =>
      obtain ⟨w, fs, ht⟩ := hreturns (.value t)
      rw [Returns.forms] at ht
      exact ⟨w, _, by rw [Member.forms, ht]; rfl⟩

theorem begins_items (L : Layout) (start : Nat → Nat) (i : Nat) (xs : List Item) :
    ∃ h ∈ itemStops, h.Begins (plant L start i (itemForms xs)) := by
  cases xs with
  | nil => exact ⟨.nothing, by decide, rfl⟩
  | cons x xs =>
      cases x with
      | usingDirective n => exact ⟨.word "using", by decide, rfl, rfl⟩
      | namespaceBlock n items => exact ⟨.word "namespace", by decide, rfl, rfl⟩
      | interface x ns ms => exact ⟨.word "interface", by decide, rfl, rfl⟩

theorem begins_member (L : Layout) (start : Nat → Nat) (i : Nat) (m : Member) (ts : List Tree) :
    ∃ h ∈ typeHeads, h.Begins (plant L start i m.forms ++ ts) := by
  cases m with
  | method r x ps =>
      rw [Member.forms, plant_append, List.append_assoc]
      exact begins_type L start i r _
  | property t x a as =>
      rw [Member.forms, plant_append, List.append_assoc]
      exact begins_type L start i (.value t) _

theorem begins_members (L : Layout) (start : Nat → Nat) (i : Nat) (ms : List Member) :
    ∃ h ∈ .nothing :: typeHeads, h.Begins (plant L start i (ms.flatMap Member.forms)) := by
  cases ms with
  | nil => exact ⟨.nothing, by decide, rfl⟩
  | cons m ms =>
      rw [List.flatMap_cons, plant_append]
      obtain ⟨h, hh, hb⟩ := begins_member L start i m _
      exact ⟨h, List.mem_cons_of_mem _ hh, hb⟩

/-- **The runs of items** are the items. -/
theorem runs_items (scope : Scope) (L : Layout) (start : Nat → Nat) (i : Nat) (xs : List Item) :
    Tree.runs scope (plant L start i (itemForms xs)) = plantEach L start i (xs.map Item.forms) := by
  induction xs generalizing i with
  | nil => rfl
  | cons x xs ih =>
      obtain ⟨w, fs, hx⟩ := x.forms_eq_word
      obtain ⟨h, hh, hb⟩ := begins_items L start (i + (leavesAll x.forms).length) xs
      have hstops : ∀ h ∈ itemStops, h.admits (.text "=") = false ∧ h.admits (.text ";") = false := by
        decide
      have hcloses := closes_item x
      rw [itemForms, plant_append, List.map_cons, plantEach, ← ih]
      rw [hx] at hb hcloses ⊢
      cases scope with
      | body => exact runs_body hcloses hb (hstops h hh).1 (hstops h hh).2
      | file => exact runs_file hx hb hh

/-- **The runs of members** are the members. -/
theorem runs_members (L : Layout) (start : Nat → Nat) (i : Nat) (ms : List Member) :
    Tree.runs .body (plant L start i (ms.flatMap Member.forms)) =
      plantEach L start i (ms.map Member.forms) := by
  induction ms generalizing i with
  | nil => rfl
  | cons m ms ih =>
      obtain ⟨w, fs, hm⟩ := m.forms_eq_word
      obtain ⟨h, hh, hb⟩ := begins_members L start (i + (leavesAll m.forms).length) ms
      have hstops : ∀ h ∈ .nothing :: typeHeads,
          h.admits (.text "=") = false ∧ h.admits (.text ";") = false := by decide
      have hcloses := closes_member m
      rw [List.flatMap_cons, plant_append, List.map_cons, plantEach, ← ih]
      rw [hm] at hb hcloses ⊢
      exact runs_body hcloses hb (hstops h hh).1 (hstops h hh).2

end InteropStubs.Outline
