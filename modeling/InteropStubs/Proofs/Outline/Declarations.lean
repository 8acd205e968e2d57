import InteropStubs.Proofs.Outline.Nesting
import InteropStubs.Proofs.Outline.Runs

/-!
# From runs to nodes

The run of an item or of a member becomes the node of the declaration that it was: no other reading of
it comes first.

* `declaration?_item`: using directives, namespaces and interfaces, in a file or in a body.
* `declaration?_member`: methods and properties.
-/

namespace InteropStubs.Outline

open Phrase Rule Layout Node

variable {L : Layout} {start : Nat → Nat} {i : Nat} {h : Head} {scope : Scope} {ts : List Tree}
  {read : Scope → List Tree → List Node}

/-! ### What a run is not -/

/-- A phrase that refuses the beginning does not fit. -/
theorem fits_eq_false {p : Phrase} (hb : h.Begins ts) (hp : p.refuses h = true) : p.fits ts = false := by
  rw [Bool.eq_false_iff]
  exact fun hfits => not_leaves hb hp (leaves_nil_iff.mpr (List.contains_iff_mem.mp hfits))

theorem kindOf?_eq_none {kinds : List (Kind × Phrase)} (hb : h.Begins ts)
    (hkinds : ∀ k ∈ kinds, k.2.refuses h = true) : kindOf? kinds ts = none := by
  rw [kindOf?, Option.map_eq_none_iff, List.find?_eq_none]
  exact fun k hk => by simp [fits_eq_false hb (hkinds k hk)]

/-- How runs begin that are no using directives. -/
def declarationHeads : List Head :=
  .word "namespace" :: .word "interface" :: typeHeads

/-- No such run is a using directive. -/
theorem usingDirective?_eq_none (scope : Scope) (hb : h.Begins ts) (hh : h ∈ declarationHeads) :
    usingDirective? scope ts = none := by
  have hfile : ∀ h ∈ declarationHeads, (usingDirectiveBut usingWords).refuses h = true := by decide
  have hbody : ∀ h ∈ declarationHeads, (usingDirectiveBut []).refuses h = true := by decide
  cases scope with
  | file => simp [usingDirective?, fits_eq_false hb (hfile h hh)]
  | body => simp [usingDirective?, fits_eq_false hb (hbody h hh)]

theorem whole?_namespaceBlock_eq_none (hb : h.Begins ts) (hh : (the "namespace").refuses h = true) :
    Reader.whole? Reader.namespaceBlock ts = none :=
  (Reader.Fails.first _ (.skip hb hh)).whole?

theorem whole?_interface_eq_none (hb : h.Begins ts)
    (hh : (decorations ++ the "interface").refuses h = true) :
    Reader.whole? Reader.interface ts = none :=
  (Reader.Fails.first _ (.skip hb hh)).whole?

/-- A run that begins with a type is no namespace and no type declaration. -/
theorem sharedDeclaration?_eq_none (hb : h.Begins ts) (hh : h ∈ typeHeads) (read : List Tree → List Node) :
    sharedDeclaration? read ts = none := by
  have hspace : ∀ h ∈ typeHeads, (the "namespace").refuses h = true := by decide
  have hinterface : ∀ h ∈ typeHeads, (decorations ++ the "interface").refuses h = true := by decide
  have hkinds : ∀ h ∈ typeHeads, ∀ k ∈ typeKinds.map Prod.snd, k.refuses h = true := by decide
  rw [sharedDeclaration?, whole?_namespaceBlock_eq_none hb (hspace h hh),
    whole?_interface_eq_none hb (hinterface h hh),
    kindOf?_eq_none hb fun k hk => hkinds h hh k.2 (List.mem_map_of_mem hk)]
  rfl

/-! ### What a run is -/

/-- The declaration of a run that begins with a word. -/
theorem declaration?_word (w : String) (fs : List Form) :
    declaration? read scope (plant L start i (.word w :: fs)) =
      (usingDirective? scope (plant L start i (.word w :: fs))).orElse fun _ =>
        match scope with
        | .body => (sharedDeclaration? (read .body) (plant L start i (.word w :: fs))).orElse fun _ =>
            member? (plant L start i (.word w :: fs))
        | .file =>
          let shared :=
            if (fileItemWith (anyGroup .curly)).fits (plant L start i (.word w :: fs)) then
              sharedDeclaration? (read .body) (plant L start i (.word w :: fs)) else none
          shared.orElse fun _ => (kindOf? fileKinds (plant L start i (.word w :: fs))).map fun kind =>
            .other (spanOf (plant L start i (.word w :: fs))) kind [] :=
  rfl

/-- A namespace or an interface is found in a file and in a body. -/
theorem declaration?_of_shared {x : Item} {n : Node}
    (husing : usingDirective? scope (plant L start i x.forms) = none)
    (hshared : sharedDeclaration? (read .body) (plant L start i x.forms) = some n) :
    declaration? read scope (plant L start i x.forms) = some n := by
  have hfits := fits_fileItem L start i x
  obtain ⟨w, fs, hx⟩ := x.forms_eq_word
  rw [hx] at husing hshared hfits ⊢
  rw [declaration?_word, husing]
  cases scope with
  | body =>
      rw [hshared]
      rfl
  | file =>
      rw [hfits, hshared]
      rfl

/-- The node of an item, where `read` makes nodes of what is in a body. -/
def itemNode (L : Layout) (start : Nat → Nat) (read : List Tree → List Node) (i : Nat) (x : Item) : Node :=
  let span := spanOf (plant L start i x.forms)
  match x with
  | .usingDirective _ => .usingDirective span
  | .namespaceBlock n items =>
    .namespaceBlock span n.text
      (read (plant L start (i + 1 + (leavesAll n.forms).length + 1) (itemForms items)))
  | .interface x ns ms =>
    .interface span ⟨x.text, keptBases ns⟩
      (read (plant L start (i + 1 + 1 + (leavesAll (baseList ns)).length + 1) (ms.flatMap Member.forms)))

/-- The node of a member. -/
def memberNode (L : Layout) (start : Nat → Nat) (i : Nat) (m : Member) : Node :=
  let span := spanOf (plant L start i m.forms)
  match m with
  | .method r x ps => .method span (keptMethod L i r x ps)
  | .property t x a as => .property span (keptProperty t x (a :: as))

/-- **An item** is read as the declaration that it was. -/
theorem declaration?_item (x : Item) :
    declaration? read scope (plant L start i x.forms) = some (itemNode L start (read .body) i x) := by
  cases x with
  | usingDirective n =>
      have hfits (keywords : List String) (hkeywords : ∀ k ∈ keywords, Words.mayBeName k = false) :
          (usingDirectiveBut keywords).fits (plant L start i (Item.usingDirective n).forms) = true := by
        have hends : Ends [] (Tree.ruleDepth (plant L start i (Item.usingDirective n).forms))
            (usingDirectiveBut keywords) (plant L start i (Item.usingDirective n).forms ++ []) [] :=
          ends_usingDirective n hkeywords []
        rw [List.append_nil] at hends
        exact hends.fits
      have husing : usingDirective? scope (plant L start i (Item.usingDirective n).forms) =
          some (.usingDirective (spanOf (plant L start i (Item.usingDirective n).forms))) := by
        cases scope with
        | file => exact if_pos (hfits usingWords (by decide))
        | body => exact if_pos (hfits [] (by simp))
      rw [Item.forms] at husing ⊢
      rw [declaration?_word, husing]
      rfl
  | namespaceBlock n items =>
      have hb : (Head.word "namespace").Begins (plant L start i (Item.namespaceBlock n items).forms) :=
        ⟨rfl, rfl⟩
      refine declaration?_of_shared (usingDirective?_eq_none scope hb (by decide)) ?_
      rw [sharedDeclaration?, (reads_namespaceBlock i n items).whole? (by simp)]
      rfl
  | interface x ns ms =>
      have hb : (Head.word "interface").Begins (plant L start i (Item.interface x ns ms).forms) :=
        ⟨rfl, rfl⟩
      refine declaration?_of_shared (usingDirective?_eq_none scope hb (by decide)) ?_
      rw [sharedDeclaration?, whole?_namespaceBlock_eq_none hb (by decide),
        (reads_interface i x ns ms).whole? (by simp)]
      rfl

/-- **A member** is read as the declaration that it was. -/
theorem declaration?_member (m : Member) :
    declaration? read .body (plant L start i m.forms) = some (memberNode L start i m) := by
  obtain ⟨h, hh, hb⟩ := begins_member L start i m []
  rw [List.append_nil] at hb
  have hmember : member? (plant L start i m.forms) = some (memberNode L start i m) := by
    cases m with
    | method r x ps =>
        rw [member?, (reads_method i r x ps).whole? (by simp)]
        rfl
    | property t x a as =>
        rw [member?, (fails_method i t x a as).whole?, (reads_property i t x a as).whole? (by simp)]
        rfl
  have husing := usingDirective?_eq_none .body hb (List.mem_cons_of_mem _ (List.mem_cons_of_mem _ hh))
  have hshared := sharedDeclaration?_eq_none hb hh (read .body)
  obtain ⟨w, fs, hm⟩ := m.forms_eq_word
  rw [hm] at husing hshared hmember ⊢
  rw [declaration?_word, husing]
  rw [hshared, hmember]
  rfl

end InteropStubs.Outline
