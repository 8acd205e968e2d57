import InteropStubs.Proofs.Phrase.Terminated
import InteropStubs.Proofs.Tree.Ground

/-!
# Braces that close nothing

A brace that closes nothing is a token like others when trees are made, and it may stand inside other brackets.
No phrase takes one there, if the phrase says what is inside the brackets as a whole (`Phrase.isTidy`). So what
a declaration takes has no such stray (`Phrase.Leaves.stray_eq_false`), and may stand between braces itself.
-/

namespace InteropStubs.Phrase

open Rule
open InteropStubs.Tree (Spelled strayIn stray)

variable {fuel : Nat} {p : Phrase} {ts rest : List Tree} {t : Tree}

/-- Whether a phrase takes no brace that closes nothing, neither at its own level nor inside brackets. -/
def isTidy : Phrase → Bool
  | empty | absent _ => true
  | one c => !(Head.mark closeBrace).admits c
  | touching text => !(Head.mark closeBrace).admits (.text text)
  | any => false
  | within b p => b == .curly || p.isTidy
  | opens b _ => b == .curly
  | andThen p q | orElse p q => p.isTidy && q.isTidy
  | many p => p.isTidy
  | rule r => r != .opensOther

/-- The only rule that does not say what is inside its brackets is one that nothing is taken with. -/
theorem isTidy_phrase {r : Rule} (hr : r ≠ .opensOther) : r.phrase.isTidy = true := by
  cases r <;> first | exact absurd rfl hr | decide

/-- A tree has no stray, unless words in it are spelled like marks. -/
def Tidy (t : Tree) : Prop :=
  Spelled [t] → strayIn .curly t = false

theorem tidy_token {t : Token} {c : TokenClass} (hc : (Head.mark closeBrace).admits c = false) (ht : c.holds t = true) :
    Tidy (.token t) := by
  intro hspelled
  rw [Bool.eq_false_iff]
  intro hstray
  have hclose : Tree.bracketClosedBy? t = some .curly := eq_of_beq hstray
  have htext : t.isText closeBrace = true := by
    unfold Tree.bracketClosedBy? at hclose
    repeat' split at hclose
    all_goals first | assumption | simp at hclose
  have hof := hspelled.of_isText List.mem_cons_self (by decide) htext
  exact absurd (Head.admits_of_holds hof ht) (by simp [hc])

theorem tidy_group {b : Bracket} {opening : Token} {inner : List Tree} {closing : Closing}
    (h : b = .curly ∨ ∀ t ∈ inner, Tidy t) : Tidy (.group b opening inner closing) := by
  intro hspelled
  rcases h with rfl | h
  · rfl
  · have hinner : stray .curly inner = false := by
      rw [Tree.stray_eq_any, List.any_eq_false]
      intro t ht
      have htidy := h t ht (hspelled.inner.of_mem ht)
      rw [htidy]
      exact Bool.false_ne_true
    rw [strayIn, hinner, Bool.and_false]

theorem tidy_of_leaves (hcall : ∀ r ≠ .opensOther, ∀ ts rest, Leaves fuel (rule r) ts rest → Front Tidy ts rest)
    (p : Phrase) (hp : p.isTidy = true) : ∀ ts rest, Leaves fuel p ts rest → Front Tidy ts rest := by
  induction p with
  | empty =>
      intro ts rest hl
      exact leaves_empty.mp hl ▸ .refl _
  | one c =>
      intro ts rest hl
      obtain ⟨t, rfl, ht⟩ := leaves_one.mp hl
      exact .cons (tidy_token (Bool.not_eq_true' _ ▸ hp) ht)
  | touching text =>
      intro ts rest hl
      obtain ⟨t, rfl, ht, -⟩ := leaves_touching.mp hl
      exact .cons (tidy_token (c := .text text) (Bool.not_eq_true' _ ▸ hp) ht)
  | any => exact absurd hp Bool.false_ne_true
  | within b p ih =>
      intro ts rest hl
      obtain ⟨opening, inner, closing, rfl, hinner⟩ := leaves_within.mp hl
      refine .cons (tidy_group ?_)
      rcases Bool.or_eq_true_iff.mp hp with hb | hp
      · exact .inl (eq_of_beq hb)
      · obtain ⟨front, rfl, hfront⟩ := ih hp inner [] hinner
        exact .inr (by rwa [List.append_nil])
  | opens b p =>
      intro ts rest hl
      obtain ⟨opening, inner, closing, left, rfl, -⟩ := leaves_opens.mp hl
      exact .cons (tidy_group (.inl (eq_of_beq hp)))
  | andThen p q ihp ihq =>
      intro ts rest hl
      obtain ⟨hp, hq⟩ := Bool.and_eq_true_iff.mp hp
      obtain ⟨mid, hfirst, hsecond⟩ := leaves_andThen.mp hl
      exact (ihp hp ts mid hfirst).trans (ihq hq mid rest hsecond)
  | orElse p q ihp ihq =>
      intro ts rest hl
      obtain ⟨hp, hq⟩ := Bool.and_eq_true_iff.mp hp
      exact (leaves_orElse.mp hl).elim (ihp hp ts rest) (ihq hq ts rest)
  | many p ih => exact Front.many (ih hp)
  | absent p =>
      intro ts rest hl
      exact (leaves_absent.mp hl).1 ▸ .refl _
  | rule r => exact hcall r (bne_iff_ne.mp hp)

theorem rule_tidy_of_leaves :
    ∀ r ≠ .opensOther, ∀ ts rest, Leaves fuel (rule r) ts rest → Front Tidy ts rest := by
  induction fuel with
  | zero =>
      rintro r - ts rest ⟨n, hn, -⟩
      exact absurd hn List.not_mem_nil
  | succ fuel ih =>
      intro r hr ts rest hl
      exact tidy_of_leaves ih r.phrase (isTidy_phrase hr) ts rest (leaves_rule.mp hl)

/-- **What a phrase takes has no stray**, if the phrase is tidy. -/
theorem Leaves.stray_eq_false (hl : Leaves fuel p ts []) (hp : p.isTidy = true) (hts : Spelled ts) :
    stray .curly ts = false := by
  obtain ⟨front, rfl, hfront⟩ := tidy_of_leaves rule_tidy_of_leaves p hp ts [] hl
  rw [List.append_nil] at hts ⊢
  rw [Tree.stray_eq_any, List.any_eq_false]
  intro t ht
  rw [hfront t ht (hts.of_mem ht)]
  exact Bool.false_ne_true

end InteropStubs.Phrase
