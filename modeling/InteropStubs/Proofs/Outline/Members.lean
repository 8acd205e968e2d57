import InteropStubs.Proofs.Node.Reads
import InteropStubs.Proofs.Outline.Types
import InteropStubs.Proofs.Phrase.Fuel

/-!
# Reading members

Methods and properties are read as they were written. Behind the type of a member comes its name, so
that a type that is left too early is of no use; behind the name, a method goes on with parentheses and
a property with braces.

* `reads_method`, `reads_property`: what is read of a member.
* `fails_method`: a property is not read as a method.
-/

namespace InteropStubs.Outline

open Phrase Rule Layout Reader

variable {L : Layout} {start : Nat → Nat} {i : Nat} {h : Head} {stops : List Head}
  {rest : List Tree}

theorem reads_skip {p : Phrase} {ts : List Tree} (hp : ∀ fuel, Ends stops (fuel + 2) p ts rest) :
    Reads stops (skip p) ts () rest := by
  obtain ⟨k, hk⟩ := exists_ruleDepth (n := 2) (by decide) ts
  exact .skip (hk ▸ hp k)

/-! ### Types in front of names -/

/-- A phrase that is a type with something ruled out in front of it. -/
theorem reads_text_of_type {p : Phrase} (r : Returns)
    (hp : ∀ h ∈ typeHeads, ∀ fuel ts mid, h.Begins ts →
      (Leaves fuel p ts mid ↔ Leaves fuel (rule .type) ts mid))
    (hrest : h.Begins rest) (hstop : h ∈ typeStops) :
    Reads breaks (text p) (plant L start i r.forms ++ rest) r.text rest := by
  obtain ⟨h₀, hh₀, hbegins⟩ := begins_type L start i r rest
  obtain ⟨k, hk⟩ := exists_ruleDepth (n := 2) (by decide) (plant L start i r.forms ++ rest)
  rw [← verbatim_type L start i r]
  exact .text <| .of_iff (fun mid => hp h₀ hh₀ _ _ mid hbegins) (hk ▸ ends_type r hrest hstop)

/-- The type of a member is read up to what follows it. -/
theorem reads_memberType (r : Returns) (hrest : h.Begins rest) (hstop : h ∈ typeStops) :
    Reads breaks (text memberType) (plant L start i r.forms ++ rest) r.text rest := by
  refine reads_text_of_type r (fun h₀ hh₀ fuel ts mid hb => ?_) hrest hstop
  have href : ∀ h ∈ typeHeads, (the "ref" ++ the "struct").refuses h = true := by decide
  have hfile : ∀ h ∈ typeHeads,
      (the "file" ++ oneOf (Words.typeStart ++ Words.memberStart)).refuses h = true := by decide
  have hscoped : ∀ h ∈ typeHeads, (ahead (the "scoped" ++ oneOf Words.behindMemberType)
      ++ the "scoped").refuses h = true := by decide
  have hbehind : ∀ h ∈ typeHeads,
      (the "scoped" ++ oneOf Words.behindMemberType).refuses h = true := by decide
  have hwords : ∀ h ∈ typeHeads, (oneOf Words.memberStart).refuses h = true := by decide
  rw [memberType, leaves_assoc, leaves_absent_andThen hb (href h₀ hh₀),
    leaves_absent_andThen hb (hfile h₀ hh₀), leaves_orElse_right hb (hscoped h₀ hh₀),
    leaves_absent_andThen hb (hbehind h₀ hh₀), notAt, leaves_absent_andThen hb (hwords h₀ hh₀)]

/-- The type of a parameter is read up to what follows it. -/
theorem reads_parameterType (r : Returns) (hrest : h.Begins rest) (hstop : h ∈ typeStops) :
    Reads breaks (text parameterType) (plant L start i r.forms ++ rest) r.text rest := by
  refine reads_text_of_type r (fun h₀ hh₀ fuel ts mid hb => ?_) hrest hstop
  have hscoped : ∀ h ∈ typeHeads, (the "scoped"
      ++ (oneOf (["in", "out", "readonly", "this"] ++ Words.typeStart) <|> anyGroup .round)).refuses h
        = true := by decide
  have hwords : ∀ h ∈ typeHeads,
      (oneOf ["in", "out", "readonly", "ref", "this"]).refuses h = true := by decide
  rw [parameterType, leaves_absent_andThen hb (hscoped h₀ hh₀), notAt,
    leaves_absent_andThen hb (hwords h₀ hh₀)]

/-- A name is read. -/
theorem reads_name {keywords : List String} (x : Identifier) (ts : List Tree)
    (hkeywords : ∀ k ∈ keywords, Words.mayBeName k = false) :
    Reads [] (nameBut keywords) (.token (L.token start i ⟨false, .word, x.text⟩) :: ts)
      (L.token start i ⟨false, .word, x.text⟩) ts :=
  .nameBut (holds_nameBut x false hkeywords)

/-! ### Lists -/

section List

variable {α β : Type} {r : Reader β} {forms : α → List Form} {value : α → β}

theorem length_le_listRest (fs : List (List Form)) : fs.length ≤ (listRest fs).length := by
  induction fs with
  | nil => exact Nat.le_refl _
  | cons f fs ih =>
      rw [listRest, List.flatMap_cons, List.length_append, List.length_cons, List.length_cons]
      rw [listRest] at ih
      omega

theorem length_lt_list (forms : α → List Form) {x : α} (hx : forms x ≠ []) (xs : List α) :
    xs.length < (list ((x :: xs).map forms)).length := by
  have hrest := length_le_listRest (xs.map forms)
  have hpos := List.length_pos_iff.mpr hx
  rw [List.map_cons, list, List.length_append]
  rw [List.length_map] at hrest
  omega

/-- **Things with commas between** are read one by one, if each of them is read in front of a comma and
in front of what follows the list. -/
theorem reads_list
    (hitem : ∀ x i rest h', h'.Begins rest → h' = .mark "," ∨ h' = h →
      Reads stops r (plant L start i (forms x) ++ rest) (value x) rest)
    (hstops : ∀ h ∈ stops, h.admits (.text ",") = false) (hh : h.admits (.text ",") = false)
    (hrest : h.Begins rest) (x : α) (xs : List α) {bound : Nat} (hbound : xs.length < bound) :
    Reads stops (separated r bound) (plant L start i (list ((x :: xs).map forms)) ++ rest)
      ((x :: xs).map value) rest := by
  induction xs generalizing x i bound with
  | nil =>
      obtain ⟨bound, rfl⟩ : ∃ n, bound = n + 1 := ⟨bound - 1, by simp at hbound; omega⟩
      have hone := hitem x i rest h hrest (.inr rfl)
      simpa [list, listRest] using hone.separated_one bound hrest hh hstops
  | cons y ys ih =>
      obtain ⟨bound, rfl⟩ : ∃ n, bound = n + 1 := ⟨bound - 1, by simp at hbound; omega⟩
      have hlist : list ((x :: y :: ys).map forms) =
          forms x ++ .mark "," :: list ((y :: ys).map forms) := rfl
      rw [hlist, plant_append, List.append_assoc]
      have hmore := ih (i := i + (leavesAll (forms x)).length + 1) y (by simpa using hbound)
      have hone := hitem x i (plant L start (i + (leavesAll (forms x)).length)
        (.mark "," :: list ((y :: ys).map forms)) ++ rest) (.mark ",") ⟨rfl, rfl⟩ (.inl rfl)
      exact hone.separated_more rfl hstops hmore

end List

/-! ### Parameters -/

/-- What is kept of a parameter. -/
def Parameter.kept (p : Parameter) : InteropStubs.Parameter :=
  ⟨p.type.text, p.name.text⟩

/-- A parameter with a type is read. -/
theorem reads_typedParameter (p : Parameter) (rest : List Tree) :
    Reads [] typedParameter (plant L start i p.forms ++ rest) p.kept rest := by
  obtain ⟨h₀, hh₀, hbegins⟩ := begins_type L start i (.value p.type)
    (plant L start (i + (leavesAll p.type.forms).length) [.word p.name.text] ++ rest)
  have hforms : plant L start i p.forms ++ rest = plant L start i (Returns.value p.type).forms ++
      (.token (L.token start (i + (leavesAll p.type.forms).length) ⟨false, .word, p.name.text⟩)
        :: rest) := by
    rw [Parameter.forms, plant_append, List.append_assoc]
    rfl
  rw [hforms]
  have hpassing : ∀ h ∈ typeHeads, (many (passing <|> the "scoped")).passes h = true := by decide
  have hearly : ∀ h ∈ breaks, h.admits (.nameBut []) = false := by decide
  have htyped : Reads [] (do
      skip (many (passing <|> the "scoped"))
      let written ← text parameterType
      return (⟨written, (← nameBut []).text⟩ : InteropStubs.Parameter)) _ p.kept rest :=
    (Reads.pass hbegins (hpassing h₀ hh₀) (leaves_many_refl _)).next <|
      (reads_parameterType (.value p.type) (begins_identifier p.name false rest) (by decide)).bind
        (fun h hh _ _ hb => .first _ (.nameBut hb (hearly h hh)))
        ((reads_name p.name rest (by simp)).map _)
  refine .longest (mem_orElse.mpr (.inl htyped.mem)) fun b left hmem => ?_
  rcases mem_orElse.mp hmem with hmem | hmem
  · exact .inl ((htyped.only b left hmem).resolve_right (by simp))
  · -- a name alone leaves at least the name of the parameter
    obtain ⟨t, mid, hname, hmem⟩ := mem_bind.mp hmem
    obtain ⟨-, rfl⟩ := mem_pure.mp hmem
    obtain ⟨heq, -⟩ := mem_nameBut.mp hname
    have hlength := congrArg List.length heq
    have hpos := List.length_pos_iff.mpr (Returns.value p.type).forms_ne_nil
    rw [List.length_append, length_plant, List.length_cons, List.length_cons] at hlength
    exact .inr (by omega)

/-- A parameter is read. -/
theorem reads_parameter (p : Parameter) (closing : Token) (hrest : h.Begins rest)
    (hh : h = .mark "," ∨ h = .nothing) :
    Reads [] (parameter closing) (plant L start i p.forms ++ rest) (some p.kept) rest := by
  obtain ⟨h₀, hh₀, hbegins⟩ := begins_type L start i (.value p.type)
    (plant L start (i + (leavesAll p.type.forms).length) [.word p.name.text] ++ rest)
  rw [← List.append_assoc, Returns.forms, ← plant_append, ← Parameter.forms] at hbegins
  have hattributes : ∀ h ∈ typeHeads, (many (rule .attributes)).passes h = true := by decide
  have hparams : ∀ h ∈ typeHeads, h.admits (.text "params") = false := by decide
  have hdefault : default.passes h = true := by rcases hh with rfl | rfl <;> decide
  exact (Reads.pass hbegins (hattributes h₀ hh₀) (leaves_many_refl _)).next <|
    (Reads.isNotNext hbegins (hparams h₀ hh₀)).next <| (reads_typedParameter p rest).next <|
    (Reads.pass hrest hdefault (leaves_optional.mpr (.inr rfl))).next (.pure _ _)

/-- **The parameters of a method** are read in order. -/
theorem parameters?_plant (ps : List Parameter) (closing : Token) :
    parameters? (plant L start i (list (ps.map Parameter.forms))) closing =
      some (ps.map Parameter.kept) := by
  cases ps with
  | nil => rfl
  | cons p ps =>
      have hbound : ps.length < (list ((p :: ps).map Parameter.forms)).length :=
        length_lt_list Parameter.forms (by simp [Parameter.forms]) ps
      have hlist : Reads [] (separated (parameter closing)
          (plant L start i (list ((p :: ps).map Parameter.forms))).length)
          (plant L start i (list ((p :: ps).map Parameter.forms)) ++ [])
          ((p :: ps).map fun p => some p.kept) [] :=
        reads_list (h := .nothing) (fun p i rest h hrest hh => reads_parameter p closing hrest hh)
          (by simp) rfl rfl p ps (by rwa [length_plant])
      rw [List.append_nil] at hlist
      have hne : plant L start i (list ((p :: ps).map Parameter.forms)) ≠ [] := fun hnil => by
        have := congrArg List.length hnil
        rw [length_plant, List.length_nil] at this
        omega
      unfold parameters?
      split
      · next hnil => exact absurd hnil hne
      · rw [hlist.whole? (by simp)]
        simp [List.filterMap_map]

/-! ### Accessors -/

theorem ends_body {fuel : Nat} (i : Nat) :
    Ends stops (fuel + 1) (rule .body) (.token (L.token start i ⟨false, .mark, ";"⟩) :: rest) rest := by
  have hbegins : (Head.mark ";").Begins (.token (L.token start i ⟨false, .mark, ";"⟩) :: rest) :=
    ⟨rfl, rfl⟩
  exact .rule (.left hbegins (by decide) (ends_mark L start i false ";"))

/-- An accessor is read. -/
theorem reads_accessor (a : Accessor) (rest : List Tree) :
    Reads [] accessor (plant L start i a.forms ++ rest) a.word rest := by
  have hbegins : (Head.word a.word).Begins (plant L start i a.forms ++ rest) := ⟨rfl, rfl⟩
  have hdecorations : decorations.passes (.word a.word) = true := by cases a <;> decide
  have hname : (TokenClass.nameBut Words.modifiers).holds
      (L.token start i ⟨false, .word, a.word⟩) = true := by
    cases a <;> simp [TokenClass.holds, token, Accessor.word, Words.modifiers]
  have hbody : Reads [] (skip (rule .body)) (plant L start (i + 1) [.mark ";"] ++ rest) () rest :=
    reads_skip fun _ => ends_body _
  exact (Reads.pass hbegins hdecorations
    (leaves_andThen.mpr ⟨_, leaves_many_refl _, leaves_many_refl _⟩)).next <|
    (Reads.nameBut hname).next <| hbody.next (.pure _ _)

/-- Accessors are read one by one. -/
theorem reads_accessors (as : List Accessor) {bound : Nat} (hbound : as.length ≤ bound) :
    Reads [] (untilEnd accessor bound) (plant L start i (as.flatMap Accessor.forms))
      (as.map Accessor.word) [] := by
  induction as generalizing i bound with
  | nil => exact .untilEnd_nil _ _
  | cons a as ih =>
      obtain ⟨bound, rfl⟩ : ∃ n, bound = n + 1 := ⟨bound - 1, by simp at hbound; omega⟩
      rw [List.flatMap_cons, plant_append]
      exact (reads_accessor a _).untilEnd_more (by simp [Accessor.forms]) (ih (by simpa using hbound))

/-- **The accessors of a property** are read in order. -/
theorem accessors?_plant (as : List Accessor) :
    accessors? (plant L start i (as.flatMap Accessor.forms)) = some (as.map Accessor.word) := by
  have hbound : as.length ≤ (plant L start i (as.flatMap Accessor.forms)).length := by
    rw [length_plant]
    induction as with
    | nil => exact Nat.le_refl _
    | cons a as ih =>
        rw [List.flatMap_cons, List.length_append, Accessor.forms]
        simp only [List.length_cons, List.length_nil]
        omega
  have hkept : ∀ a ∈ as.map Accessor.word, accessorWords.contains a = true := by
    intro w hw
    obtain ⟨a, -, rfl⟩ := List.mem_map.mp hw
    cases a <;> decide
  rw [accessors?, (reads_accessors as hbound).whole? (by simp), Option.map_some,
    List.filter_eq_self.mpr hkept]

/-! ### Members -/

/-- How what follows the name of a member begins. -/
def memberGroups : List Head :=
  [.group .round, .group .curly]

/-- In front of a plain name there is no owner. -/
theorem ends_owner {fuel : Nat} (x : Identifier) {ts : List Tree} (hts : h.Begins ts)
    (hh : h ∈ memberGroups) (i : Nat) :
    Ends stops fuel owner (.token (L.token start i ⟨false, .word, x.text⟩) :: ts)
      (.token (L.token start i ⟨false, .word, x.text⟩) :: ts) := by
  have hbehind : ∀ k ∈ Words.behindMemberType, Words.mayBeName k = false := by decide
  have hgroups : ∀ h ∈ memberGroups, (the "::").refuses h = true ∧ (the ".").refuses h = true ∧
      (rule .typeArguments).refuses h = true := by decide
  obtain ⟨hcolons, hpoint, harguments⟩ := hgroups h hh
  refine ⟨leaves_optional.mpr (.inr rfl), fun mid hl => .inl ?_⟩
  refine (leaves_optional.mp hl).resolve_left fun hl => ?_
  -- behind the name there is neither a double colon nor a point
  obtain ⟨us, hl, -⟩ := leaves_andThen.mp hl
  obtain ⟨vs, hfirst, hdot⟩ := leaves_andThen.mp hl
  rcases leaves_orElse.mp hfirst with hfirst | hpart
  · obtain ⟨ws, hfirst, -⟩ := leaves_andThen.mp hfirst
    obtain ⟨xs, hname, hmark⟩ := leaves_andThen.mp hfirst
    obtain rfl := (ends_nameBut x false hbehind).leaves_iff.mp hname
    exact not_leaves hts hcolons hmark
  · obtain rfl := (ends_simpleName hbehind hts harguments).leaves_iff.mp hpart
    exact not_leaves hts hpoint hdot

/-- **The type and the name of a member** are read together. -/
theorem reads_memberHead (r : Returns) (x : Identifier) {ts : List Tree} (hts : h.Begins ts)
    (hh : h ∈ memberGroups) (j : Nat) :
    Reads [] memberHead
      (plant L start i r.forms ++ .token (L.token start j ⟨false, .word, x.text⟩) :: ts)
      (r.text, x.text) ts := by
  obtain ⟨h₀, hh₀, hbegins⟩ := begins_type L start i r
    (.token (L.token start j ⟨false, .word, x.text⟩) :: ts)
  have hdecorations : ∀ h ∈ typeHeads, memberDecorations.passes h = true := by decide
  have hdirective : ∀ h ∈ typeHeads,
      (oneOf ["namespace", "using"] <|> the "global" ++ the "using").refuses h = true := by decide
  have howner : ∀ h ∈ breaks, owner.passes h = true := by decide
  have hname : ∀ h ∈ breaks, h.admits (.nameBut Words.behindMemberType) = false := by decide
  refine (Reads.pass hbegins (hdecorations h₀ hh₀) ?_).next <|
    (reads_memberType r (begins_identifier x false ts) (by decide)).bind (fun h hh _ _ hb => ?_) ?_
  · exact leaves_andThen.mpr ⟨_, leaves_andThen.mpr
      ⟨_, (leaves_absent_of_refuses hbegins (hdirective h₀ hh₀)).mpr rfl, leaves_many_refl _⟩,
      leaves_many_refl _⟩
  · exact .next (.pass hb (howner h hh) (leaves_optional.mpr (.inr rfl)))
      (.first _ (.nameBut hb (hname h hh)))
  · exact (Reads.skip (ends_owner x hts hh j)).next ((reads_name x ts (by decide)).map _)

/-- What is kept of a method whose first token has the number `i`. -/
def keptMethod (L : Layout) (i : Nat) (r : Returns) (x : Identifier) (ps : List Parameter) : Method :=
  ⟨x.text, r.text, ps.map Parameter.kept,
    L.spelled (i + (leavesAll r.forms).length + 1) (parameterList ps).leaves⟩

/-- What is kept of a property. -/
def keptProperty (t : ValueType) (x : Identifier) (as : List Accessor) : Property :=
  ⟨x.text, t.text, as.map Accessor.word⟩

/-- **A method is read as it was written.** -/
theorem reads_method (i : Nat) (r : Returns) (x : Identifier) (ps : List Parameter) :
    Reads [] Reader.method (plant L start i (Member.method r x ps).forms) (keptMethod L i r x ps) [] := by
  have hlist (j : Nat) : Tree.verbatim [plantOne L start j (parameterList ps)] =
      L.spelled j (parameterList ps).leaves := by
    simpa using verbatim_plant (L := L) (i := j) [parameterList ps]
  have hbegins (j : Nat) : (Head.group .round).Begins (plant L start j [parameterList ps, .mark ";"]) :=
    rfl
  have hsemicolon (j : Nat) : (Head.mark ";").Begins (plant L start j [.mark ";"]) := ⟨rfl, rfl⟩
  rw [Member.forms, plant_append, keptMethod, ← hlist]
  exact (reads_memberHead r x (hbegins _) (by decide) _).next <|
    (Reads.pass (hbegins _) (by decide) (leaves_optional.mpr (.inr rfl))).next <|
    (Reads.group _ _ _ _ _).next <| (Reads.given (parameters?_plant ps _) _).next <|
    (reads_skip fun _ => .next (.many (hsemicolon _) (by decide)) (ends_body _)).next (.pure _ _)

theorem begins_accessors (L : Layout) (start : Nat → Nat) (i : Nat) (fs : List Form) :
    (Head.group .curly).Begins (plant L start i [.group false .curly fs]) :=
  rfl

/-- **A property is read as it was written.** -/
theorem reads_property (i : Nat) (t : ValueType) (x : Identifier) (a : Accessor) (as : List Accessor) :
    Reads [] Reader.property (plant L start i (Member.property t x a as).forms)
      (keptProperty t x (a :: as)) [] := by
  have hbegins (j : Nat) := begins_accessors L start j ((a :: as).flatMap Accessor.forms)
  have hnothing : Head.nothing.Begins [] := rfl
  rw [Member.forms, plant_append]
  exact (reads_memberHead (.value t) x (hbegins _) (by decide) _).next <|
    (Reads.isNotNext (hbegins _) rfl).next <|
    (Reads.group _ _ _ _ _).next <| (Reads.given (accessors?_plant (a :: as)) _).next <|
    (Reads.pass hnothing (by decide) (leaves_optional.mpr (.inr rfl))).next (.pure _ _)

/-- A property is not read as a method. -/
theorem fails_method (i : Nat) (t : ValueType) (x : Identifier) (a : Accessor) (as : List Accessor) :
    Fails Reader.method (plant L start i (Member.property t x a as).forms) := by
  have hbegins (j : Nat) := begins_accessors L start j ((a :: as).flatMap Accessor.forms)
  rw [Member.forms, plant_append]
  exact .next (reads_memberHead (.value t) x (hbegins _) (by decide) _) <|
    .next (.pass (hbegins _) (by decide) (leaves_optional.mpr (.inr rfl))) <|
    .first _ (.group (hbegins _) (by decide))

end InteropStubs.Outline
