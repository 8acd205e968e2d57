import InteropStubs.Proofs.Node.Reads
import InteropStubs.Proofs.Phrase.Fuel
import InteropStubs.Proofs.Phrase.Members

/-!
# Members that are divided

A list is divided by phrases if each phrase may take its part in front of what follows (`Phrase.Divides`). Methods and
properties have one division (`Phrase.MemberHead.unique`), and so what is read of them is what the parts say that are
kept, whatever the other parts are (`Reader.whole?_method`, `Reader.whole?_property`).
-/

namespace InteropStubs

open Phrase Rule

variable {fuel : Nat} {ts us mid rest part : List Tree}

namespace Phrase

/-! ### Divisions -/

theorem ruleDepth_le_of_suffix (h : us <:+ ts) : Tree.ruleDepth us ≤ Tree.ruleDepth ts := by
  obtain ⟨front, rfl⟩ := h
  rw [Tree.ruleDepth, Tree.ruleDepth, Tree.tokensAll_append, List.length_append]
  omega

/-- A phrase may take some trees in front of the rest. -/
def Stands (p : Phrase) (part rest : List Tree) : Prop :=
  part.length ∈ p.sizes (part ++ rest)

instance (p : Phrase) (part rest : List Tree) : Decidable (p.Stands part rest) :=
  inferInstanceAs (Decidable (_ ∈ _))

theorem leaves_append_iff {p : Phrase} :
    Leaves fuel p (part ++ rest) rest ↔ part.length ∈ p.takes (Rule.takes fuel) (part ++ rest) := by
  constructor
  · rintro ⟨n, hn, hdrop⟩
    have hle := takes_le (rule_takes_le _) p _ n hn
    have hlength := congrArg List.length hdrop
    rw [List.length_drop] at hlength
    rw [List.length_append] at hle hlength
    rwa [show part.length = n by omega]
  · exact fun hmem => ⟨_, hmem, by simp⟩

theorem stands_iff {p : Phrase} (h : Tree.ruleDepth (part ++ rest) ≤ fuel) :
    p.Stands part rest ↔ Leaves fuel p (part ++ rest) rest := by
  rw [leaves_append_iff, takes_eq_sizes p h, Stands]

/-- A list of parts, each of which one of some phrases may take in front of those that follow. -/
def Divides : List Phrase → List (List Tree) → Prop
  | p :: ps, part :: parts => p.Stands part parts.flatten ∧ Divides ps parts
  | [], [] => True
  | _, _ => False

instance decidableDivides : ∀ (ps : List Phrase) (parts : List (List Tree)), Decidable (Divides ps parts)
  | p :: ps, part :: parts =>
    have := decidableDivides ps parts
    inferInstanceAs (Decidable (p.Stands part parts.flatten ∧ Divides ps parts))
  | [], [] => inferInstanceAs (Decidable True)
  | [], _ :: _ | _ :: _, [] => inferInstanceAs (Decidable False)

/-- The same with a bound for the rules that are entered. -/
def LeavesInTurn (fuel : Nat) : List Phrase → List (List Tree) → Prop
  | p :: ps, part :: parts => Leaves fuel p (part ++ parts.flatten) parts.flatten ∧ LeavesInTurn fuel ps parts
  | [], [] => True
  | _, _ => False

theorem Divides.leaves {ps : List Phrase} {parts : List (List Tree)} (h : Divides ps parts)
    (hfuel : Tree.ruleDepth parts.flatten ≤ fuel) : LeavesInTurn fuel ps parts := by
  induction ps generalizing parts with
  | nil =>
      cases parts with
      | nil => trivial
      | cons part parts => exact h.elim
  | cons p ps ih =>
      cases parts with
      | nil => exact h.elim
      | cons part parts =>
          obtain ⟨hstands, hmore⟩ := h
          exact ⟨(stands_iff hfuel).mp hstands,
            ih hmore (Nat.le_trans (ruleDepth_le_of_suffix (List.suffix_append _ _)) hfuel)⟩

end Phrase

namespace Reader

variable {α β : Type}

/-! ### First results -/

/-- **Reading goes on from one place** if it comes to an end from no other. -/
theorem whole?_bind {r : Reader α} {f : α → Reader β} {a : α} (hmem : (a, mid) ∈ r ts)
    (honly : ∀ b left c, (b, left) ∈ r ts → (c, []) ∈ f b left → b = a ∧ left = mid) :
    whole? (r >>= f) ts = whole? (f a) mid := by
  have hnone (results : List (β × List Tree)) (h : ∀ c, (c, []) ∉ results) :
      (results.find? fun result => result.2.isEmpty) = none := by
    rw [List.find?_eq_none]
    rintro ⟨c, left⟩ hc hempty
    obtain rfl := List.isEmpty_iff.mp hempty
    exact h c hc
  show (((r ts).flatMap fun result => f result.1 result.2).find? fun result => result.2.isEmpty).map Prod.fst = _
  rw [whole?]
  congr 1
  generalize r ts = results at hmem honly
  -- Results in front of `(a, mid)` are not read to the end, so that it is the first one that can be.
  cases hf : (f a mid).find? fun result => result.2.isEmpty with
  | none =>
      refine hnone _ fun c hc => ?_
      obtain ⟨⟨b, left⟩, hb, hc⟩ := List.mem_flatMap.mp hc
      obtain ⟨rfl, rfl⟩ := honly b left c hb hc
      exact absurd rfl (List.find?_eq_none.mp hf _ hc)
  | some c =>
      induction results with
      | nil => exact absurd hmem List.not_mem_nil
      | cons result results ih =>
          rw [List.flatMap_cons, List.find?_append]
          by_cases heq : result = (a, mid)
          · subst heq
            rw [hf, Option.some_or]
          · rw [hnone (f result.1 result.2), Option.none_or]
            · exact ih ((List.mem_cons.mp hmem).resolve_left fun h => heq h.symm) fun b left c hb hc =>
                honly b left c (List.mem_cons_of_mem _ hb) hc
            · intro c hc
              obtain ⟨hfirst, hsecond⟩ := honly _ _ c List.mem_cons_self hc
              exact heq (Prod.ext hfirst hsecond)

theorem whole?_bind_single {r : Reader α} {f : α → Reader β} {a : α} (h : r ts = [(a, mid)]) :
    whole? (r >>= f) ts = whole? (f a) mid :=
  whole?_bind (h ▸ List.mem_singleton_self _) fun b left c hb _ => by
    rw [h] at hb
    exact Prod.mk.inj (List.mem_singleton.mp hb)

theorem whole?_given (o : Option α) (f : α → Reader β) (ts : List Tree) :
    whole? (given o >>= f) ts = o.bind fun a => whole? (f a) ts := by
  cases o with
  | none => rfl
  | some a => exact whole?_bind_single rfl

theorem group_cons (b : Bracket) (opening closing : Token) (inner rest : List Tree) :
    group b (.group b opening inner (.present closing) :: rest) =
      [((.group b opening inner (.present closing), inner, closing), rest)] :=
  if_pos rfl

/-- All that is read of a list as a whole is one value. -/
theorem whole?_eq_some {r : Reader α} {a : α} (hmem : (a, []) ∈ r ts) (honly : ∀ b, (b, []) ∈ r ts → b = a) :
    whole? r ts = some a := by
  obtain ⟨result, hresult⟩ : ∃ result, ((r ts).find? fun result => result.2.isEmpty) = some result :=
    Option.isSome_iff_exists.mp (List.find?_isSome.mpr ⟨(a, []), hmem, rfl⟩)
  have hempty : result.2 = [] := by simpa using List.find?_some hresult
  have hread : (result.1, []) ∈ r ts := by
    simpa only [← hempty] using List.mem_of_find?_eq_some hresult
  rw [whole?, hresult, Option.map_some, honly _ hread]

/-! ### Parts -/

theorem mem_skip_of_le {p : Phrase} {u : Unit} (h : Tree.ruleDepth ts ≤ fuel) :
    (u, rest) ∈ skip p ts ↔ Leaves fuel p ts rest :=
  mem_skip_iff.trans (leaves_iff_of_le (Nat.le_refl _) h)

theorem mem_text_of_le {p : Phrase} {a : String} (h : Tree.ruleDepth ts ≤ fuel) :
    (a, rest) ∈ text p ts ↔ ∃ front, ts = front ++ rest ∧ a = Tree.verbatim front ∧ Leaves fuel p ts rest := by
  constructor
  · intro hmem
    have hl := leaves_of_mem_text hmem
    obtain ⟨front, rfl⟩ := hl.suffix
    obtain ⟨rfl, -⟩ := mem_text_append.mp hmem
    exact ⟨front, rfl, rfl, (leaves_iff_of_le (Nat.le_refl _) h).mp hl⟩
  · rintro ⟨front, rfl, rfl, hl⟩
    exact mem_text_append.mpr ⟨rfl, (leaves_iff_of_le (Nat.le_refl _) h).mpr hl⟩

/-! ### Members -/

theorem mem_memberHead {written name : String} (h : Tree.ruleDepth ts ≤ fuel) :
    ((written, name), rest) ∈ memberHead ts ↔ ∃ front owned n, MemberHead fuel ts (front ++ owned) owned n rest ∧
      written = Tree.verbatim front ∧ name = n.text := by
  have hle {p : Phrase} {us vs : List Tree} (hl : Leaves fuel p us vs) (h : Tree.ruleDepth us ≤ fuel) :
      Tree.ruleDepth vs ≤ fuel :=
    Nat.le_trans (ruleDepth_le_of_suffix hl.suffix) h
  simp only [memberHead, mem_bind, mem_pure, mem_nameBut, Prod.mk.injEq]
  constructor
  · rintro ⟨_, type, hskip, _, owned, htext, _, left, howner, n, _, ⟨rfl, hn⟩, ⟨rfl, rfl⟩, rfl⟩
    have hdecorations := (mem_skip_of_le h).mp hskip
    have hle₁ := hle hdecorations h
    obtain ⟨front, rfl, rfl, htype⟩ := (mem_text_of_le hle₁).mp htext
    exact ⟨front, owned, n, ⟨hdecorations, htype, (mem_skip_of_le (hle htype hle₁)).mp howner, hn⟩, rfl, rfl⟩
  · rintro ⟨front, owned, n, ⟨hdecorations, htype, howner, hn⟩, rfl, rfl⟩
    have hle₁ := hle hdecorations h
    exact ⟨(), _, (mem_skip_of_le h).mpr hdecorations, _, owned, (mem_text_of_le hle₁).mpr ⟨front, rfl, rfl, htype⟩,
      (), _, (mem_skip_of_le (hle htype hle₁)).mpr howner, n, rest, ⟨rfl, hn⟩, ⟨rfl, rfl⟩, rfl⟩

theorem leavesEnd_le {p : Phrase} (hl : Leaves fuel p ts rest) (h : Tree.ruleDepth ts ≤ fuel) :
    Tree.ruleDepth rest ≤ fuel :=
  Nat.le_trans (ruleDepth_le_of_suffix hl.suffix) h

/-- What a method goes on with behind its name. -/
theorem exists_of_mem_methodRest {head : String × String} {m : Method} (hfuel : Tree.ruleDepth ts ≤ fuel)
    (h : (m, []) ∈ methodRest head ts) : ∃ opening inner closing after,
      Leaves fuel methodTypeParameters ts (.group .round opening inner (.present closing) :: after) ∧
        Leaves fuel (constraints ++ rule .body) after [] := by
  obtain ⟨_, us, hskip, hlist⟩ := mem_bind.mp h
  obtain ⟨⟨list, inner, closing⟩, left, hgroup, hparameters⟩ := mem_bind.mp hlist
  obtain ⟨opening, rfl, rfl⟩ := mem_group.mp hgroup
  obtain ⟨ps, after, hgiven, hbody⟩ := mem_bind.mp hparameters
  obtain ⟨-, rfl⟩ := mem_given.mp hgiven
  obtain ⟨_, _, hend, hpure⟩ := mem_bind.mp hbody
  obtain ⟨-, rfl⟩ := mem_pure.mp hpure
  have htypes := (mem_skip_of_le hfuel).mp hskip
  have hafter := Nat.le_trans (ruleDepth_le_of_suffix ((List.suffix_cons _ _).trans htypes.suffix)) hfuel
  exact ⟨opening, inner, closing, after, htypes, (mem_skip_of_le hafter).mp hend⟩

/-- Behind the name of a method stands nothing that a property goes on with. -/
theorem not_begins_of_parameters {opening closing : Token} {inner : List Tree}
    (h : Leaves fuel methodTypeParameters ts (.group .round opening inner (.present closing) :: rest)) :
    ¬ BeginsIn [.group .curly, .mark "=>"] ts := by
  rintro ⟨head, hhead, hb⟩
  have hpasses : ∀ h ∈ [Head.group .curly, .mark "=>"], methodTypeParameters.passes h = true := by decide
  obtain rfl := eq_of_leaves hb (hpasses head hhead) h
  have hbegins : BeginsIn [.group .curly, .mark "=>"] (.group .round opening inner (.present closing) :: rest) :=
    ⟨head, hhead, hb⟩
  exact hbegins.disjoint ⟨.group .round, List.mem_singleton_self _, rfl⟩ (by decide)

theorem startsIn_arrowBody : StartsIn [.mark "=>"] fuel arrowBody :=
  (startsIn_the (by decide)).andThen.andThen

/-- What a property goes on with behind its name. -/
theorem begins_of_mem_propertyRest {head : String × String} {p : Property} (hts : Tree.Spelled ts)
    (h : (p, []) ∈ propertyRest head ts) : BeginsIn [.group .curly, .mark "=>"] ts := by
  obtain ⟨isArrow, _, hnext, hmore⟩ := mem_bind.mp h
  obtain ⟨-, rfl⟩ := mem_next.mp hnext
  split at hmore
  · obtain ⟨_, us, hskip, -⟩ := mem_bind.mp hmore
    exact (startsIn_arrowBody _ us hts (mem_skip_iff.mp hskip)).mono (by decide)
  · obtain ⟨⟨g, inner, closing⟩, us, hgroup, -⟩ := mem_bind.mp hmore
    obtain ⟨opening, rfl, rfl⟩ := mem_group.mp hgroup
    exact ⟨.group .curly, by decide, rfl⟩

theorem behindName_of_mem_methodRest {head : String × String} {m : Method} (hts : Tree.Spelled ts)
    (h : (m, []) ∈ methodRest head ts) : BehindName ts := by
  obtain ⟨opening, inner, closing, after, htypes, hend⟩ := exists_of_mem_methodRest (Nat.le_refl _) h
  have hafter : Tree.Spelled after := hts.of_subset fun t ht => htypes.suffix.subset (List.mem_cons_of_mem _ ht)
  exact behindName_of_leaves hts htypes (.method (closes_of_leaves hafter hend))

/-- **Behind the head of a member**, it is read on from one place. -/
theorem whole?_memberHead {β : Type} {f : String × String → Reader β} {front owned : List Tree} {name : Token}
    (hfuel : Tree.ruleDepth ts ≤ fuel) (hts : Tree.Spelled ts) (hhead : MemberHead fuel ts (front ++ owned) owned name rest)
    (hrest : BehindName rest)
    (hf : ∀ head us b, Tree.Spelled us → (b, []) ∈ f head us → BehindName us) :
    whole? (memberHead >>= f) ts = whole? (f (Tree.verbatim front, name.text)) rest := by
  refine whole?_bind ((mem_memberHead hfuel).mpr ⟨front, owned, name, hhead, rfl, rfl⟩) ?_
  rintro ⟨written, text⟩ left b hmem hb
  obtain ⟨front', owned', name', hhead', rfl, rfl⟩ := (mem_memberHead hfuel).mp hmem
  have hleft : Tree.Spelled left := hts.of_subset (LeavesEnd.memberHead _ _ _ hmem).subset
  obtain ⟨hfront, rfl, rfl, rfl⟩ := hhead'.unique hhead hts (hf _ left b hleft hb) hrest
  obtain rfl := List.append_cancel_right hfront
  exact ⟨rfl, rfl⟩

/-- **A method** is read as its type, its name and its parentheses say. -/
theorem whole?_method {front owned after inner : List Tree} {name opening closing : Token}
    (hfuel : Tree.ruleDepth ts ≤ fuel) (hts : Tree.Spelled ts) (hhead : MemberHead fuel ts (front ++ owned) owned name rest)
    (hgroup : Leaves fuel methodTypeParameters rest (.group .round opening inner (.present closing) :: after))
    (hend : Leaves fuel (constraints ++ rule .body) after []) :
    whole? method ts = (parameters? inner closing).map fun ps =>
      ⟨name.text, Tree.verbatim front, ps, Tree.verbatim [.group .round opening inner (.present closing)]⟩ := by
  have hmem : ((Tree.verbatim front, name.text), rest) ∈ memberHead ts :=
    (mem_memberHead hfuel).mpr ⟨front, owned, name, hhead, rfl, rfl⟩
  have hsuffix := LeavesEnd.memberHead _ _ _ hmem
  have hrest : Tree.Spelled rest := hts.of_subset hsuffix.subset
  have hrestFuel : Tree.ruleDepth rest ≤ fuel := Nat.le_trans (ruleDepth_le_of_suffix hsuffix) hfuel
  have hafterSuffix : after <:+ rest := (List.suffix_cons _ _).trans hgroup.suffix
  have hafter : Tree.Spelled after := hrest.of_subset hafterSuffix.subset
  have hafterFuel : Tree.ruleDepth after ≤ fuel := Nat.le_trans (ruleDepth_le_of_suffix hafterSuffix) hrestFuel
  have hbehind := behindName_of_leaves hrest hgroup (.method (closes_of_leaves hafter hend))
  rw [method_eq, whole?_memberHead hfuel hts hhead hbehind fun _ _ _ => behindName_of_mem_methodRest]
  have hgroups : whole? (methodRest (Tree.verbatim front, name.text)) rest = _ :=
    whole?_bind (a := ()) ((mem_skip_of_le hrestFuel).mpr hgroup) fun _ left m hleft hm => by
      obtain ⟨⟨list, inner', closing'⟩, us, hlist, -⟩ := mem_bind.mp hm
      obtain ⟨opening', rfl, rfl⟩ := mem_group.mp hlist
      exact ⟨rfl, eq_of_methodTypeParameters hrest ((mem_skip_of_le hrestFuel).mp hleft) hgroup rfl rfl⟩
  rw [hgroups, whole?_bind_single (group_cons .round opening closing inner after), whole?_given, Option.map_eq_bind]
  refine Option.bind_congr fun ps _ => whole?_eq_some ?_ fun m hm => ?_
  · exact mem_bind.mpr ⟨(), [], (mem_skip_of_le hafterFuel).mpr hend, mem_pure.mpr ⟨rfl, rfl⟩⟩
  · obtain ⟨_, _, -, hpure⟩ := mem_bind.mp hm
    exact (mem_pure.mp hpure).1

/-- **A property** is no method. -/
theorem whole?_method_of_property {type owned : List Tree} {name : Token} (hts : Tree.Spelled ts)
    (hhead : MemberHead fuel ts type owned name rest) (hfuel : Tree.ruleDepth ts ≤ fuel)
    (hrest : BeginsIn [.group .curly, .mark "=>"] rest) : whole? method ts = none := by
  obtain ⟨front, rfl⟩ := hhead.type.suffix
  have hbehind : BehindName rest := .plain (.property hrest)
  rw [method_eq, whole?_memberHead hfuel hts hhead hbehind fun _ _ _ => behindName_of_mem_methodRest]
  refine Option.map_eq_none_iff.mpr (List.find?_eq_none.mpr ?_)
  rintro ⟨m, left⟩ hm hempty
  obtain rfl : left = [] := by simpa using hempty
  obtain ⟨opening, inner, closing, after, htypes, -⟩ := exists_of_mem_methodRest (Nat.le_refl _) hm
  exact not_begins_of_parameters htypes hrest

/-- **A property** is read as its type and its name say, and what is behind them. -/
theorem whole?_property {front owned : List Tree} {name : Token} (hfuel : Tree.ruleDepth ts ≤ fuel)
    (hts : Tree.Spelled ts) (hhead : MemberHead fuel ts (front ++ owned) owned name rest)
    (hrest : BeginsIn [.group .curly, .mark "=>"] rest) :
    whole? property ts = whole? (propertyRest (Tree.verbatim front, name.text)) rest := by
  rw [property_eq, whole?_memberHead hfuel hts hhead (.plain (.property hrest))]
  exact fun _ us _ hus h => .plain (.property (begins_of_mem_propertyRest hus h))

end Reader

end InteropStubs
