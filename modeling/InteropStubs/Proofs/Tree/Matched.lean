import InteropStubs.Proofs.Tree.Relabel
import Mathlib.Tactic.ByContra
import Mathlib.Tactic.SplitIfs

/-!
# Matched brackets

A group opens with a token that opens its bracket and closes, if it does, with one that closes it; no
token that opens a bracket stands alone (`Tree.Matched`).

* `Tree.matched_ofTokens`: so it is with all trees that nesting makes.
* `Tree.quotes_le`: where all brackets are closed, no more strings are opened than closed.
-/

namespace InteropStubs.Tree

/-- A tree in which brackets are opened and closed by their own tokens. -/
inductive Matched : Tree → Prop
  | token {t : Token} (hopen : bracketOpenedBy? t = none) : Matched (.token t)
  | group {b : Bracket} {opening : Token} {inner : List Tree} {closing : Closing}
      (hopen : bracketOpenedBy? opening = some b)
      (hclose : ∀ t, closing = .present t → bracketClosedBy? t = some b)
      (hinner : ∀ t ∈ inner, Matched t) : Matched (.group b opening inner closing)

/-- The same for an open bracket and the trees in front of it. -/
structure Opened.Matched (o : Opened) : Prop where
  opening : bracketOpenedBy? o.opening = some o.bracket
  before : ∀ t ∈ o.before, t.Matched

namespace Pass

/-- The same for all trees of a pass. -/
structure Matched (s : Pass) : Prop where
  opened : ∀ o ∈ s.opened, o.Matched
  level : ∀ t ∈ s.level, t.Matched

variable {s : Pass} {t : Token} {opened : List Opened} {level : List Tree}

theorem matched_closeInto {o : Opened} {closing : Closing} (ho : o.Matched)
    (hlevel : ∀ t ∈ level, t.Matched) (hclose : ∀ t, closing = .present t → bracketClosedBy? t = some o.bracket) :
    ∀ t ∈ closeInto o level closing, t.Matched :=
  List.forall_mem_cons.mpr
    ⟨.group ho.opening hclose fun t ht => hlevel t (List.mem_reverse.mp ht), ho.before⟩

theorem matched_giveUp (p : Opened → Bool) (place : Nat) (hopened : ∀ o ∈ opened, o.Matched)
    (hlevel : ∀ t ∈ level, t.Matched) :
    (∀ o ∈ (giveUp p place opened level).1, o.Matched) ∧ ∀ t ∈ (giveUp p place opened level).2, t.Matched := by
  induction opened generalizing level with
  | nil => exact ⟨hopened, hlevel⟩
  | cons o opened ih =>
      obtain ⟨ho, hrest⟩ := List.forall_mem_cons.mp hopened
      rw [giveUp]
      split
      · exact ih hrest (matched_closeInto ho hlevel fun t ht => absurd ht (by simp))
      · exact ⟨hopened, hlevel⟩

/-- The bracket at which giving up ends is not one that is given up. -/
theorem head?_giveUp (p : Opened → Bool) (place : Nat) (opened : List Opened) (level : List Tree) :
    ∀ o ∈ (giveUp p place opened level).1.head?, p o = false := by
  induction opened generalizing level with
  | nil => exact nofun
  | cons o opened ih =>
      rw [giveUp]
      split
      · exact ih _
      · next h =>
        intro o' ho'
        obtain rfl := Option.some.inj ho'
        simpa using h

theorem matched_cons_token (hlevel : ∀ t ∈ level, t.Matched) (hopen : bracketOpenedBy? t = none) :
    ∀ u ∈ .token t :: level, u.Matched :=
  List.forall_mem_cons.mpr ⟨.token hopen, hlevel⟩

theorem Matched.push (h : s.Matched) (t : Token) : (s.push t).Matched := by
  unfold Pass.push
  split
  · next b _ hopen => exact ⟨List.forall_mem_cons.mpr ⟨⟨hopen, h.level⟩, h.opened⟩, nofun⟩
  · next b hopen hclose =>
    unfold Pass.leave
    split
    · obtain ⟨hopened, hlevel⟩ := matched_giveUp (·.bracket != b) s.reach h.opened h.level
      have hhead := head?_giveUp (·.bracket != b) s.reach s.opened s.level
      generalize giveUp (·.bracket != b) s.reach s.opened s.level = left at hopened hlevel hhead ⊢
      obtain ⟨_ | ⟨o, opened⟩, level⟩ := left
      · exact ⟨nofun, matched_cons_token hlevel hopen⟩
      · obtain ⟨ho, hrest⟩ := List.forall_mem_cons.mp hopened
        have hb : o.bracket = b := by simpa using hhead o rfl
        refine ⟨hrest, matched_closeInto ho hlevel fun u hu => ?_⟩
        obtain rfl := Closing.present.inj hu
        exact hb ▸ hclose
    · exact ⟨h.opened, matched_cons_token h.level hopen⟩
  · next hopen _ =>
    unfold Pass.add
    split
    · obtain ⟨hopened, hlevel⟩ := matched_giveUp Opened.endsAtSemicolon s.reach h.opened h.level
      exact ⟨hopened, matched_cons_token hlevel hopen⟩
    · exact ⟨h.opened, matched_cons_token h.level hopen⟩

theorem Matched.foldl (h : s.Matched) (ts : List Token) : (ts.foldl Pass.push s).Matched := by
  induction ts generalizing s with
  | nil => exact h
  | cons t ts ih => exact ih (h.push t)

end Pass

/-- **Nesting matches brackets.** -/
theorem matched_ofTokens (ts : List Token) : ∀ t ∈ ofTokens ts, t.Matched := by
  have hstart : Pass.Matched {} := ⟨nofun, nofun⟩
  have hfold := hstart.foldl ts
  intro t ht
  exact (Pass.matched_giveUp _ _ hfold.opened hfold.level).2 t (List.mem_reverse.mp ht)

/-! ### Strings that are opened and closed -/

/-- How many strings with holes some tokens begin. -/
def openedQuotes (ts : List Token) : Nat :=
  ts.countP fun t => t.kind == .openingQuote

/-- How many they end. -/
def closedQuotes (ts : List Token) : Nat :=
  ts.countP fun t => t.kind == .closingQuote

theorem kind_eq_openingQuote_iff {t : Token} {b : Bracket} (h : bracketOpenedBy? t = some b) :
    t.kind = .openingQuote ↔ b = .quote := by
  constructor
  · intro hkind
    have hquote : bracketOpenedBy? t = some .quote := by
      simp [bracketOpenedBy?, Token.isText, Token.isDirective, hkind]
    exact Option.some.inj (h.symm.trans hquote)
  · rintro rfl
    by_contra hkind
    simp only [bracketOpenedBy?, hkind, if_false] at h
    split_ifs at h <;> simp_all

theorem kind_ne_openingQuote {t : Token} (h : bracketOpenedBy? t = none) : t.kind ≠ .openingQuote := by
  intro hkind
  simp [bracketOpenedBy?, Token.isText, Token.isDirective, hkind] at h

theorem kind_ne_of_closes {t : Token} {b : Bracket} (h : bracketClosedBy? t = some b) :
    t.kind ≠ .openingQuote := by
  intro hkind
  simp [bracketClosedBy?, Token.isText, Token.isDirective, hkind] at h

theorem kind_eq_closingQuote {t : Token} (h : bracketClosedBy? t = some .quote) : t.kind = .closingQuote := by
  by_contra hkind
  simp only [bracketClosedBy?, hkind, if_false] at h
  split_ifs at h <;> simp_all

mutual

theorem quotesIn_le : ∀ t : Tree, t.Matched → t.isClosed = true →
    openedQuotes t.tokens ≤ closedQuotes t.tokens
  | .token t, .token hopen, _ => by
      simp [openedQuotes, tokens, kind_ne_openingQuote hopen]
  | .group b opening inner (.present closing), .group hopen hclose hinner, hclosed => by
      have hle := quotes_le inner hinner hclosed
      simp only [openedQuotes, closedQuotes, tokens, Closing.tokens, List.countP_cons, List.countP_append,
        List.countP_nil] at hle ⊢
      have hne := kind_ne_of_closes (hclose closing rfl)
      by_cases hb : b = .quote
      · have hclosing := kind_eq_closingQuote (hb ▸ hclose closing rfl)
        have hopening := (kind_eq_openingQuote_iff hopen).mpr hb
        simp only [hopening, hclosing, beq_self_eq_true, if_true, reduceCtorEq, beq_iff_eq, if_false]
        omega
      · have hopening : opening.kind ≠ .openingQuote := fun hkind =>
          hb ((kind_eq_openingQuote_iff hopen).mp hkind)
        simp only [beq_eq_false_iff_ne.mpr hopening, beq_eq_false_iff_ne.mpr hne, Bool.false_eq_true,
          if_false]
        omega
  | .group _ _ _ (.absent _), _, hclosed => absurd hclosed Bool.false_ne_true

/-- **No more strings are opened than closed**, where all brackets are closed. -/
theorem quotes_le : ∀ ts : List Tree, (∀ t ∈ ts, t.Matched) → areClosed ts = true →
    openedQuotes (tokensAll ts) ≤ closedQuotes (tokensAll ts)
  | [], _, _ => Nat.le_refl _
  | t :: ts, hmatched, hclosed => by
      obtain ⟨ht, hts⟩ := List.forall_mem_cons.mp hmatched
      obtain ⟨hone, hall⟩ := Bool.and_eq_true_iff.mp hclosed
      have hone := quotesIn_le t ht hone
      have hall := quotes_le ts hts hall
      simp only [openedQuotes, closedQuotes, tokensAll, List.countP_append] at hone hall ⊢
      omega

end

/-! ### Depth -/

theorem depth_le_iff {ts : List Tree} {d : Nat} : depth ts ≤ d ↔ ∀ t ∈ ts, t.depthIn ≤ d := by
  induction ts with
  | nil => simp [depth]
  | cons t ts ih => rw [depth, Nat.max_le, ih, List.forall_mem_cons]

theorem depth_append (ts us : List Tree) : depth (ts ++ us) = max (depth ts) (depth us) := by
  induction ts with
  | nil => rw [List.nil_append, depth, Nat.zero_max]
  | cons t ts ih => rw [List.cons_append, depth, depth, ih, Nat.max_assoc]

theorem depth_lt_of_mem {b : Bracket} {opening : Token} {inner ts : List Tree} {closing : Closing}
    (h : .group b opening inner closing ∈ ts) : depth inner < depth ts :=
  depth_le_iff.mp (Nat.le_refl (depth ts)) _ h

end InteropStubs.Tree
