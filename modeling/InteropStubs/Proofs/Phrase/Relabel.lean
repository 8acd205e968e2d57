import InteropStubs.Node.Run
import InteropStubs.Proofs.Tree.Relabel

/-!
# What phrases do not see

A phrase looks at the kinds and texts of tokens and, for a few texts, at whether a token touches the
one in front of it. So a `Relabelling` leaves alone whatever phrases find out.

* `Phrase.sizes_relabel`: a phrase takes as many trees after a relabelling as before.
* `Tree.runs_relabel`: lists are cut into the same runs.
-/

namespace InteropStubs

/-- A token is of the same classes wherever it stands. -/
@[simp] theorem Relabelling.holds (φ : Relabelling) (t : Token) (c : TokenClass) :
    c.holds (φ t) = c.holds t := by
  cases c <;> simp [TokenClass.holds]

/-- No more fuel is needed elsewhere. -/
@[simp] theorem Tree.ruleDepth_relabel (φ : Relabelling) (ts : List Tree) :
    ruleDepth (ts.map (relabel φ)) = ruleDepth ts := by
  simp [ruleDepth, tokensAll_relabel]

/-! ### Phrases -/

namespace Phrase

variable (φ : Relabelling)

/-- Whether a phrase asks only the touchy texts whether they touch what is in front of them. -/
def isDiscreet : Phrase → Bool
  | touching text => Token.touchy.contains text
  | within _ p | opens _ p | many p | absent p => p.isDiscreet
  | andThen p q | orElse p q => p.isDiscreet && q.isDiscreet
  | empty | one _ | any | rule _ => true

/-- A repetition does not depend on where the tokens are, if its steps do not. -/
theorem repeated_map {step : List Tree → List Nat} {f : Tree → Tree}
    (hstep : ∀ ts, step (ts.map f) = step ts) (bound : Nat) (ahead : List Nat) (ts : List Tree) :
    repeated step bound ahead (ts.map f) = repeated step bound ahead ts := by
  induction bound generalizing ahead ts with
  | zero => rfl
  | succ bound ih => simp only [repeated, hstep, ← List.map_drop, ih]

/-- **No phrase sees a relabelling**, if no rule in it does. -/
theorem takes_relabel {call : Rule → List Tree → List Nat}
    (hcall : ∀ r ts, call r (ts.map (Tree.relabel φ)) = call r ts) (p : Phrase)
    (hp : p.isDiscreet = true) :
    ∀ ts, p.takes call (ts.map (Tree.relabel φ)) = p.takes call ts := by
  induction p with
  | empty => exact fun _ => rfl
  | one c =>
      intro ts
      rcases ts with _ | ⟨_ | _, ts⟩ <;> simp [takes]
  | any =>
      intro ts
      cases ts <;> rfl
  | within b p ih | opens b p ih =>
      intro ts
      rcases ts with _ | ⟨_ | ⟨_, _, _, _ | _⟩, ts⟩ <;> simp [takes, Closing.relabel, ih hp]
  | andThen p q ihp ihq =>
      intro ts
      obtain ⟨hp, hq⟩ := Bool.and_eq_true_iff.mp hp
      simp only [takes, inTurn, ihp hp, ← List.map_drop, ihq hq]
  | orElse p q ihp ihq =>
      intro ts
      obtain ⟨hp, hq⟩ := Bool.and_eq_true_iff.mp hp
      simp only [takes, ihp hp, ihq hq]
  | many p ih =>
      intro ts
      simp only [takes, List.length_map, repeated_map (ih hp)]
  | absent p ih =>
      intro ts
      simp only [takes, ih hp]
  | touching text =>
      intro ts
      have htext : text ∈ Token.touchy := List.contains_iff_mem.mp hp
      rcases ts with _ | ⟨t | _, ts⟩
      · rfl
      · simp only [List.map_cons, Tree.relabel_token, takes, φ.isText_and_isTight t htext]
      · simp [takes]
  | rule r => exact hcall r

/-- The phrases of all rules are discreet. -/
theorem isDiscreet_phrase (r : Rule) : r.phrase.isDiscreet = true := by
  cases r <;> decide

/-- A rule takes as much elsewhere. -/
theorem rule_takes_relabel (fuel : Nat) (r : Rule) (ts : List Tree) :
    Rule.takes fuel r (ts.map (Tree.relabel φ)) = Rule.takes fuel r ts := by
  induction fuel generalizing r ts with
  | zero => rfl
  | succ fuel ih => exact takes_relabel φ ih r.phrase (isDiscreet_phrase r) ts

/-- **A phrase takes as many trees** after a relabelling as before. -/
theorem sizes_relabel {p : Phrase} (hp : p.isDiscreet = true) (ts : List Tree) :
    p.sizes (ts.map (Tree.relabel φ)) = p.sizes ts := by
  rw [sizes, Tree.ruleDepth_relabel, takes_relabel φ (rule_takes_relabel φ _) p hp, sizes]

/-- A phrase fits elsewhere, too. -/
theorem fits_relabel {p : Phrase} (hp : p.isDiscreet = true) (ts : List Tree) :
    p.fits (ts.map (Tree.relabel φ)) = p.fits ts := by
  rw [fits, sizes_relabel φ hp, List.length_map, fits]

end Phrase

/-! ### Runs -/

namespace Run

variable (φ : Relabelling)

/-- A declaration goes up to the same semicolon. -/
theorem throughSemicolon_relabel (ts : List Tree) :
    throughSemicolon (ts.map (Tree.relabel φ)) = throughSemicolon ts := by
  induction ts with
  | nil => rfl
  | cons t ts ih => simp only [List.map_cons, throughSemicolon, Tree.isText_relabel, ih]

/-- A semicolon that touches touches elsewhere. -/
theorem isText_and_isTight_relabel (t : Tree) :
    ((t.relabel φ).isText ";" && (t.relabel φ).head.isTight) = (t.isText ";" && t.head.isTight) := by
  cases t with
  | token t =>
      rw [Tree.relabel_token]
      exact φ.isText_and_isTight t (by decide)
  | group => simp [Tree.isText]

/-- A body ends at the same place. -/
theorem behindBody_relabel (isBlock : Bool) (ts : List Tree) :
    behindBody isBlock (ts.map (Tree.relabel φ)) = behindBody isBlock ts := by
  cases ts with
  | nil => rfl
  | cons t ts =>
      simp only [List.map_cons, behindBody, Bool.and_assoc, isText_and_isTight_relabel,
        throughSemicolon_relabel]
      simp only [Tree.isText_relabel]

/-- A declaration is as long. -/
theorem declarationSize_relabel (isBlock : Bool) (ts : List Tree) :
    declarationSize isBlock (ts.map (Tree.relabel φ)) = declarationSize isBlock ts := by
  induction ts generalizing isBlock with
  | nil => rfl
  | cons t ts ih =>
      simp only [List.map_cons, declarationSize, Tree.isText_relabel, Tree.isGroup_relabel,
        throughSemicolon_relabel, behindBody_relabel, isBlockKeyword, ih]

theorem isAlone_relabel (t : Tree) : isAlone (t.relabel φ) = isAlone t := by
  cases t with
  | token t => simp [isAlone]
  | group b opening inner closing =>
      have hfits (p : Phrase) (hp : p.isDiscreet = true) :
          p.fits [(Tree.group b opening inner closing).relabel φ] = p.fits [.group b opening inner closing] :=
        Phrase.fits_relabel φ hp [.group b opening inner closing]
      rw [Tree.relabel_group] at hfits
      simp only [Tree.relabel_group, isAlone, isConditionalAttribute]
      rw [hfits _ (by decide), hfits _ (by decide)]

/-- A run is as long. -/
theorem size_relabel (scope : Scope) (t : Tree) (ts : List Tree) :
    size scope (t.relabel φ) (ts.map (Tree.relabel φ)) = size scope t ts := by
  have hitem : fileItemSize? ((t :: ts).map (Tree.relabel φ)) = fileItemSize? (t :: ts) := by
    rw [fileItemSize?, Phrase.sizes_relabel φ (by decide), fileItemSize?]
  have hdeclaration := declarationSize_relabel φ false (t :: ts)
  rw [List.map_cons] at hitem hdeclaration
  simp only [size, isAlone_relabel, hitem, hdeclaration]

/-- A list is cut into the same runs. -/
theorem cut_relabel (scope : Scope) (skip : Nat) (ts : List Tree) :
    cut scope skip (ts.map (Tree.relabel φ)) = (cut scope skip ts).map (List.map (Tree.relabel φ)) := by
  induction ts generalizing skip with
  | nil => cases skip <;> rfl
  | cons t ts ih =>
      cases skip with
      | succ skip => exact ih skip
      | zero => simp only [List.map_cons, cut, size_relabel, ih, List.map_take]

end Run

/-- **Relabelled lists are cut into the same runs.** -/
theorem Tree.runs_relabel (φ : Relabelling) (scope : Scope) (ts : List Tree) :
    runs scope (ts.map (relabel φ)) = (runs scope ts).map (List.map (relabel φ)) :=
  Run.cut_relabel φ scope 0 ts

end InteropStubs
