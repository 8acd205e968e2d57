import InteropStubs.Proofs.Phrase.Local
import InteropStubs.Proofs.Tree.Tokens

/-!
# How declarations close

Most declarations end at the first semicolon, or behind the first braces with a semicolon that touches them. A
phrase of such a declaration is `Terminated`: nothing in it is a semicolon or braces but its end, and it looks for
neither in front of that.

* `Terminated.ending`: such a phrase has one end, and that is behind the first semicolon or braces (`Ending`).
* `Terminated.append`: it fits a declaration as well if others follow.
-/

namespace InteropStubs

/-- Words are not spelled like marks, however deep inside some trees. -/
def Tree.Spelled (ts : List Tree) : Prop :=
  ∀ t ∈ tokensAll ts, t.kind = .word → t.text ∉ Words.marks

namespace Tree.Spelled

variable {ts us : List Tree}

/-- Some of spelled trees are spelled. -/
theorem of_subset (hts : Tree.Spelled ts) (h : us ⊆ ts) : Tree.Spelled us := by
  intro t ht
  rw [tokensAll_eq_flatMap] at ht
  obtain ⟨u, hu, ht⟩ := List.mem_flatMap.mp ht
  exact hts t (tokensAll_eq_flatMap ts ▸ List.mem_flatMap.mpr ⟨u, h hu, ht⟩)

theorem of_mem {t : Tree} (hts : Tree.Spelled ts) (ht : t ∈ ts) : Tree.Spelled [t] :=
  hts.of_subset fun _ hu => List.mem_singleton.mp hu ▸ ht

/-- Spelled trees in front of spelled trees are spelled. -/
theorem append (hts : Tree.Spelled ts) (hus : Tree.Spelled us) : Tree.Spelled (ts ++ us) := by
  intro t ht
  rw [tokensAll_append] at ht
  exact (List.mem_append.mp ht).elim (hts t) (hus t)

/-- What is in a spelled group is spelled. -/
theorem inner {b : Bracket} {opening : Token} {closing : Closing} (h : Tree.Spelled [.group b opening us closing]) :
    Tree.Spelled us :=
  fun t ht => h t (by simp [tokens, ht])

/-- Among spelled trees what is spelled like a mark is one. -/
theorem of_isText {t : Token} {m : String} (hts : Tree.Spelled ts) (ht : .token t ∈ ts) (hm : m ∈ Words.marks)
    (h : t.isText m = true) : (Head.mark m).of (.token t) := by
  obtain ⟨hkind | hkind, htext⟩ : (t.kind = .word ∨ t.kind = .mark) ∧ t.text = m := by
    simpa [Token.isText] using h
  · have hmem : t ∈ tokensAll ts := tokensAll_eq_flatMap ts ▸ List.mem_flatMap.mpr ⟨_, ht, by simp [tokens]⟩
    exact absurd (htext ▸ hm) (hts t hmem hkind)
  · exact ⟨hkind, htext⟩

end Tree.Spelled

/-- What may follow a declaration: nothing that might go on with it. -/
def Tree.Parted (ts : List Tree) : Prop :=
  ∀ t ∈ ts.head?, t.isText ";" = false ∧ t.isText "=" = false

namespace Phrase

open Rule
open InteropStubs.Tree (Spelled Parted)

variable {heads : List Head} {h : Head} {fuel : Nat} {p q : Phrase} {e e' t : Tree}
  {ts run front front' after after' mid rest rest' : List Tree}

/-- A list has one first tree with a property. -/
theorem eq_of_append_cons {P : Tree → Prop} (heq : front ++ e :: after = front' ++ e' :: after')
    (hfront : ∀ t ∈ front, ¬ P t) (hfront' : ∀ t ∈ front', ¬ P t) (he : P e) (he' : P e') :
    front = front' ∧ e = e' ∧ after = after' := by
  induction front generalizing front' with
  | nil =>
      cases front' with
      | nil => exact ⟨rfl, List.cons.inj heq⟩
      | cons t front' =>
          obtain ⟨rfl, -⟩ := List.cons.inj heq
          exact absurd he (hfront' _ List.mem_cons_self)
  | cons t front ih =>
      cases front' with
      | nil =>
          obtain ⟨rfl, -⟩ := List.cons.inj heq
          exact absurd he' (hfront _ List.mem_cons_self)
      | cons t' front' =>
          obtain ⟨rfl, htail⟩ := List.cons.inj heq
          obtain ⟨rfl, hrest⟩ := ih htail (fun t ht => hfront t (List.mem_cons_of_mem _ ht))
            fun t ht => hfront' t (List.mem_cons_of_mem _ ht)
          exact ⟨rfl, hrest⟩

/-! ### Ends of declarations -/

/-- The heads of the trees that declarations end with. -/
def sealHeads : List Head :=
  [.mark ";", .group .curly]

/-- What is left behind a semicolon that touches what is in front of it. -/
def behindTouching : List Tree → List Tree
  | .token t :: ts => if t.isText ";" && t.isTight then ts else .token t :: ts
  | ts => ts

theorem behindTouching_token (t : Token) (ts : List Tree) :
    behindTouching (.token t :: ts) = if t.isText ";" && t.isTight then ts else .token t :: ts :=
  rfl

/-- A touching semicolon is taken where it stands, and it may be missing elsewhere. -/
theorem leaves_touchingSemicolon : Leaves fuel touchingSemicolon ts rest ↔ rest = behindTouching ts := by
  have hchoice : Leaves fuel touchingSemicolon ts rest ↔
      Leaves fuel (touching ";") ts rest ∨ Leaves fuel (absent (touching ";")) ts rest := leaves_orElse
  rw [hchoice, leaves_absent]
  rcases ts with _ | ⟨t | _, ts⟩
  · simp [behindTouching]
  · rw [behindTouching_token]
    split
    · next htight =>
      rw [Bool.and_eq_true] at htight
      have htaken : ∀ left, Leaves fuel (touching ";") (.token t :: ts) left ↔ left = ts := fun left => by
        rw [leaves_touching]
        exact ⟨fun ⟨_, heq, _⟩ => (List.cons.inj heq).2.symm, fun heq => ⟨t, by rw [heq], htight⟩⟩
      simp [htaken]
    · next htight =>
      have hnone : ∀ left, ¬ Leaves fuel (touching ";") (.token t :: ts) left := fun left hl => by
        obtain ⟨t', heq, htext, h⟩ := leaves_touching.mp hl
        obtain ⟨heq, -⟩ := List.cons.inj heq
        obtain rfl := Tree.token.inj heq
        exact htight (by rw [htext, h]; rfl)
      simp [hnone]
  · simp [behindTouching]

/-- What follows a declaration is left behind its semicolon. -/
theorem behindTouching_append (h : behindTouching after = []) (hrest : Parted rest) :
    behindTouching (after ++ rest) = rest := by
  rcases after with _ | ⟨t | _, after⟩
  · rcases rest with _ | ⟨t | _, rest⟩
    · rfl
    · have hnone : t.isText ";" = false := (hrest _ rfl).1
      rw [List.nil_append, behindTouching_token, hnone]
      rfl
    · rfl
  · rw [behindTouching_token] at h
    rw [List.cons_append, behindTouching_token]
    split at h
    · next htight => rw [if_pos htight, h, List.nil_append]
    · exact absurd h (List.cons_ne_nil _ _)
  · exact absurd h (List.cons_ne_nil _ _)

/-- What is left of the trees behind the semicolon or the braces of a declaration. -/
def behindSeal : Tree → List Tree → List Tree
  | .token _, after => after
  | .group .., after => behindTouching after

/-- Some trees up to the end of a declaration, and what is left of them: in front of the end there are no trees
with some heads. -/
inductive Ending (heads : List Head) : List Tree → List Tree → Prop
  | intro {front : List Tree} {e : Tree} (hfront : ∀ h ∈ heads, ∀ t ∈ front, ¬ h.of t)
      (he : ∃ h ∈ sealHeads, h.of e) (after : List Tree) : Ending heads (front ++ e :: after) (behindSeal e after)

namespace Ending

/-- A declaration ends where its semicolon or its braces stand. -/
theorem here (he : ∃ h ∈ sealHeads, h.of e) (after : List Tree) : Ending heads (e :: after) (behindSeal e after) :=
  @intro heads [] e nofun he after

/-- A declaration that ends has a tree. -/
theorem ne_nil (h : Ending heads ts rest) : ts ≠ [] := by
  obtain ⟨-, -, after⟩ := h
  simp

/-- In front of an end there are fewer heads as well. -/
theorem mono {heads' : List Head} (h : Ending heads ts rest) (hheads : heads' ⊆ heads) : Ending heads' ts rest := by
  obtain ⟨hfront, he, after⟩ := h
  exact .intro (fun h hh => hfront h (hheads hh)) he after

/-- More trees may stand in front of an end, if none of them has one of the heads. -/
theorem prepend (h : Ending heads ts rest) (hfront : ∀ h ∈ heads, ∀ t ∈ front, ¬ h.of t) :
    Ending heads (front ++ ts) rest := by
  obtain ⟨hfront', he, after⟩ := h
  have hall := fun h hh => List.forall_mem_append.mpr ⟨hfront h hh, hfront' h hh⟩
  exact List.append_assoc .. ▸ .intro hall he after

/-- **There is one end.** -/
theorem unique (h : Ending sealHeads ts rest) (h' : Ending sealHeads ts rest') : rest = rest' := by
  generalize hts : ts = us at h'
  obtain ⟨hfront, he, after⟩ := h
  obtain ⟨hfront', he', after'⟩ := h'
  have hnone {front : List Tree} (hfront : ∀ h ∈ sealHeads, ∀ t ∈ front, ¬ h.of t) :
      ∀ t ∈ front, ¬ ∃ h ∈ sealHeads, h.of t := fun t ht ⟨h, hh, hof⟩ => hfront h hh t ht hof
  obtain ⟨-, rfl, rfl⟩ := eq_of_append_cons hts (hnone hfront) (hnone hfront') he he'
  rfl

/-- The end of a declaration is its end if something else follows. -/
theorem append (h : Ending heads run []) (hrest : Parted rest) : Ending heads (run ++ rest) rest := by
  generalize hleft : ([] : List Tree) = left at h
  obtain ⟨hfront, he, after⟩ := h
  rename_i front e
  have hend := Ending.intro hfront he (after ++ rest)
  have hbehind : behindSeal e (after ++ rest) = rest := by
    cases e with
    | token t =>
        obtain rfl : [] = after := hleft
        rfl
    | group => exact behindTouching_append hleft.symm hrest
  rw [hbehind] at hend
  simpa using hend

end Ending

/-! ### Phrases of declarations -/

/-- Whether a phrase takes braces. -/
def takesBraces : Phrase → Bool
  | within b _ | opens b _ => b == .curly
  | _ => false

/-- A phrase of a declaration, in front of whose end there are no trees with some heads. -/
inductive Terminated (heads : List Head) : Phrase → Prop
  | semicolon : Terminated heads (the ";")
  | body {p : Phrase} (hp : p.takesBraces = true) : Terminated heads (closedBody p)
  | andThen {p q : Phrase} (hp : ∀ h ∈ heads, p.overlooks typeRules h = true) (hq : Terminated heads q) :
      Terminated heads (p ++ q)
  | orElse {p q : Phrase} (hp : Terminated heads p) (hq : Terminated heads q) : Terminated heads (p <|> q)

/-- The heads that the rules of types overlook. -/
def plainHeads : List Head :=
  sealHeads ++ [.mark "=", .mark "=>"]

/-- The rules of types overlook the heads of plain trees. -/
theorem overlookedBy_typeRules (hh : h ∈ plainHeads) : OverlookedBy typeRules h := by
  have hall : ∀ h ∈ plainHeads, ∀ r ∈ typeRules, r.phrase.overlooks typeRules h = true := by decide
  exact hall h hh

/-- What overlooks a head avoids it. -/
theorem avoids_of_overlooks {rules : List Rule} {p : Phrase} (hp : p.overlooks rules h = true) :
    p.avoids rules h = true := by
  induction p with
  | empty | one | any | touching | within | opens | rule => exact hp
  | andThen p q ihp ihq | orElse p q ihp ihq =>
      obtain ⟨hp, hq⟩ := Bool.and_eq_true_iff.mp hp
      exact Bool.and_eq_true_iff.mpr ⟨ihp hp, ihq hq⟩
  | many p ih => exact ih hp
  | absent => rfl

/-- What a phrase takes that overlooks some heads. -/
theorem exists_front_of_overlooks (hl : Leaves fuel p ts rest) (hheads : heads ⊆ plainHeads)
    (hp : ∀ h ∈ heads, p.overlooks typeRules h = true) :
    ∃ front, ts = front ++ rest ∧ ∀ h ∈ heads, ∀ t ∈ front, ¬ h.of t := by
  obtain ⟨front, rfl⟩ := hl.suffix
  refine ⟨front, rfl, fun h hh => ?_⟩
  have havoided : AvoidedBy typeRules h := fun r hr =>
    avoids_of_overlooks (overlookedBy_typeRules (hheads hh) r hr)
  obtain ⟨front', heq, hfront⟩ := hl.without havoided (avoids_of_overlooks (hp h hh))
  exact List.append_cancel_right heq ▸ hfront

/-- What a phrase of a declaration takes ends where the declaration does. -/
theorem Terminated.ending (hp : Terminated heads p) (hheads : heads ⊆ plainHeads) (hts : Spelled ts)
    (hl : Leaves fuel p ts rest) : Ending heads ts rest := by
  induction hp generalizing ts with
  | semicolon =>
      obtain ⟨t, rfl, ht⟩ := leaves_one.mp hl
      have he : (Head.mark ";").of (.token t) := hts.of_isText List.mem_cons_self (by decide) ht
      exact .here ⟨_, by decide, he⟩ rest
  | @body p hp =>
      obtain ⟨after, hbraces, htouching⟩ := leaves_andThen.mp hl
      obtain rfl := leaves_touchingSemicolon.mp htouching
      have hgroup : ∃ opening inner closing, ts = .group .curly opening inner (.present closing) :: after := by
        cases p with
        | within b p =>
            obtain ⟨opening, inner, closing, rfl, -⟩ := leaves_within.mp hbraces
            obtain rfl : b = .curly := eq_of_beq hp
            exact ⟨opening, inner, closing, rfl⟩
        | opens b p =>
            obtain ⟨opening, inner, closing, -, rfl, -⟩ := leaves_opens.mp hbraces
            obtain rfl : b = .curly := eq_of_beq hp
            exact ⟨opening, inner, closing, rfl⟩
        | _ => exact absurd hp Bool.false_ne_true
      obtain ⟨opening, inner, closing, rfl⟩ := hgroup
      have he : (Head.group .curly).of (.group .curly opening inner (.present closing)) := rfl
      exact .here ⟨_, by decide, he⟩ after
  | andThen hp _ ih =>
      obtain ⟨mid, hfirst, hsecond⟩ := leaves_andThen.mp hl
      obtain ⟨front, rfl, hfront⟩ := exists_front_of_overlooks hfirst hheads hp
      exact (ih (hts.of_subset (List.subset_append_right _ _)) hsecond).prepend hfront
  | orElse _ _ ihp ihq => exact (leaves_orElse.mp hl).elim (ihp hts) (ihq hts)

/-- **What follows a declaration does not matter** to its phrase. -/
theorem Terminated.append (hp : Terminated heads p) (hheads : heads ⊆ plainHeads) (hseals : sealHeads ⊆ heads)
    (hrun : Spelled run) (hl : Leaves fuel p run []) (hrest : Parted rest) : Leaves fuel p (run ++ rest) rest := by
  induction hp generalizing run with
  | semicolon =>
      obtain ⟨t, rfl, ht⟩ := leaves_one.mp hl
      exact leaves_one.mpr ⟨t, rfl, ht⟩
  | @body p hp =>
      obtain ⟨after, hbraces, htouching⟩ := leaves_andThen.mp hl
      have hafter := leaves_touchingSemicolon.mp htouching
      refine leaves_andThen.mpr ⟨after ++ rest, ?_, leaves_touchingSemicolon.mpr
        (behindTouching_append hafter.symm hrest).symm⟩
      cases p with
      | within b p =>
          obtain ⟨opening, inner, closing, rfl, h⟩ := leaves_within.mp hbraces
          exact leaves_within.mpr ⟨opening, inner, closing, rfl, h⟩
      | opens b p =>
          obtain ⟨opening, inner, closing, left, rfl, h⟩ := leaves_opens.mp hbraces
          exact leaves_opens.mpr ⟨opening, inner, closing, left, rfl, h⟩
      | _ => exact absurd hp Bool.false_ne_true
  | @andThen p q hp hq ih =>
      obtain ⟨mid, hfirst, hsecond⟩ := leaves_andThen.mp hl
      obtain ⟨front, rfl⟩ := hfirst.suffix
      have hmid := hrun.of_subset (List.subset_append_right _ _)
      refine leaves_andThen.mpr ⟨mid ++ rest, ?_, ih hmid hsecond⟩
      -- The first phrase has looked no further than the end of the second one, so it does not see `rest`.
      generalize hnil : ([] : List Tree) = left at hsecond
      obtain ⟨hfront, ⟨h, hh, he⟩, after⟩ := hq.ending hheads hmid hsecond
      rename_i front' e
      rw [← List.append_assoc] at hfirst
      obtain ⟨front'', heq, hall⟩ :=
        hfirst.change_behind (overlookedBy_typeRules (hheads (hseals hh))) (hp h (hseals hh)) he
      obtain rfl := List.append_cancel_right heq
      simpa using hall e (after ++ rest) he
  | orElse _ _ ihp ihq =>
      exact leaves_orElse.mpr ((leaves_orElse.mp hl).imp (ihp hrun) (ihq hrun))

end Phrase

end InteropStubs
