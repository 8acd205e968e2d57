import InteropStubs.Proofs.Tree.Tokens
import Mathlib.Data.List.Forall2

/-!
# Relabelled trees

A `Relabelling` changes tokens in all that their nesting does not depend on: places, trails and gaps.

* `Tree.ofTokens_map`: relabelled tokens nest as the tokens did, if no bracket is left open.
-/

namespace InteropStubs

/-- The texts of which phrases ask whether they touch what is in front of them. -/
def Token.touchy : List String := [";", ">", ">="]

/-- A change of tokens that no phrase sees. -/
structure Relabelling where
  toFun : Token → Token
  kind (t : Token) : (toFun t).kind = t.kind
  text (t : Token) : (toFun t).text = t.text
  isTight (t : Token) {m : String} (hm : m ∈ Token.touchy) (h : t.isText m = true) :
    (toFun t).isTight = t.isTight

namespace Relabelling

instance : CoeFun Relabelling fun _ => Token → Token := ⟨toFun⟩

variable (φ : Relabelling) (t : Token)

attribute [simp] kind text

@[simp] theorem isText (s : String) : (φ t).isText s = t.isText s := by
  simp [Token.isText]

@[simp] theorem isDirective (name : String) : (φ t).isDirective name = t.isDirective name := by
  simp [Token.isDirective]

/-- A mark that touches the token in front touches it elsewhere. -/
theorem isText_and_isTight {s : String} (hs : s ∈ Token.touchy) :
    ((φ t).isText s && (φ t).isTight) = (t.isText s && t.isTight) := by
  rw [isText]
  cases h : t.isText s with
  | false => rfl
  | true => rw [φ.isTight t hs h]

end Relabelling

/-- The relabelling that changes nothing. -/
def Relabelling.none : Relabelling where
  toFun t := t
  kind _ := rfl
  text _ := rfl
  isTight _ _ _ _ := rfl

/-! ### Twins -/

/-- Tokens that differ at most in where they stand and, if the first stands at a given place, in the gap in
front of them. -/
structure Token.Twin (p : Nat) (t t' : Token) : Prop where
  kind : t'.kind = t.kind
  text : t'.text = t.text
  gap : t.start ≠ p → t'.gap = t.gap

/-- **Twins are relabelled**, if each token stands at a place of its own. -/
theorem Relabelling.exists_of_twins {p : Nat} {ts ts' : List Token} (h : List.Forall₂ (Token.Twin p) ts ts')
    (hts : (ts.map Token.start).Nodup)
    (hp : ∀ t ∈ ts, t.start = p → ∀ m ∈ Token.touchy, t.isText m = false) :
    ∃ φ : Relabelling, ts.map φ = ts' ∧ ∀ t, t.start ≠ p → (φ t).gap = t.gap := by
  induction h with
  | nil => exact ⟨.none, rfl, fun _ _ => rfl⟩
  | @cons t t' ts ts' htwin _ ih =>
      obtain ⟨hnotin, hts⟩ := List.nodup_cons.mp hts
      obtain ⟨ht, hp⟩ := List.forall_mem_cons.mp hp
      obtain ⟨φ, hmap, hgap⟩ := ih hts hp
      refine ⟨⟨fun u => if u = t then t' else φ u, fun u => ?_, fun u => ?_, fun u m hm hu => ?_⟩, ?_, fun u hu => ?_⟩
      · split
        · next heq => rw [heq, htwin.kind]
        · exact φ.kind u
      · split
        · next heq => rw [heq, htwin.text]
        · exact φ.text u
      · split
        · next heq =>
          subst heq
          by_cases hstart : u.start = p
          · exact absurd hu (by simp [ht hstart m hm])
          · rw [Token.isTight, htwin.gap hstart, Token.isTight]
        · exact φ.isTight u hm hu
      · have hne : ∀ u ∈ ts, u ≠ t := fun u hu heq => hnotin (List.mem_map_of_mem (heq ▸ hu))
        rw [List.map_cons, ← hmap]
        refine congrArg₂ List.cons (if_pos rfl) (List.map_congr_left fun u hu => if_neg (hne u hu))
      · dsimp only
        split
        · next heq => rw [heq, htwin.gap (heq ▸ hu)]
        · exact hgap u hu

/-- The ending of a relabelled group. The place where a closing token is missed is forgotten. -/
def Closing.relabel (φ : Relabelling) : Closing → Closing
  | present t => present (φ t)
  | absent _ => absent 0

namespace Tree

variable (φ : Relabelling)

mutual

/-- A tree of which all tokens are relabelled. -/
def relabel : Tree → Tree
  | token t => token (φ t)
  | group b opening inner closing => group b (φ opening) (relabelAll inner) (closing.relabel φ)

/-- Trees of which all tokens are relabelled. -/
def relabelAll : List Tree → List Tree
  | [] => []
  | t :: ts => relabel t :: relabelAll ts

end

@[simp] theorem relabelAll_eq_map (ts : List Tree) : relabelAll φ ts = ts.map (relabel φ) := by
  induction ts with
  | nil => rfl
  | cons t ts ih => rw [relabelAll, ih, List.map_cons]

@[simp] theorem relabel_token (t : Token) : relabel φ (.token t) = .token (φ t) := by
  rw [relabel]

@[simp] theorem relabel_group (b : Bracket) (opening : Token) (inner : List Tree) (closing : Closing) :
    relabel φ (.group b opening inner closing) =
      .group b (φ opening) (inner.map (relabel φ)) (closing.relabel φ) := by
  rw [relabel, relabelAll_eq_map]

@[simp] theorem head_relabel (t : Tree) : (relabel φ t).head = φ t.head := by
  cases t <;> simp [head]

@[simp] theorem isText_relabel (s : String) (t : Tree) : (relabel φ t).isText s = t.isText s := by
  cases t <;> simp [isText]

@[simp] theorem isGroup_relabel (b : Bracket) (t : Tree) : (relabel φ t).isGroup b = t.isGroup b := by
  cases t <;> simp [isGroup]

mutual

/-- The tokens of a relabelled tree are the relabelled ones. -/
theorem tokens_relabel : ∀ t : Tree, tokens (relabel φ t) = (tokens t).map φ
  | .token t => by simp [tokens]
  | .group b opening inner closing => by
      have hinner := tokensAll_relabel inner
      cases closing <;> simp [tokens, hinner, Closing.relabel, Closing.tokens]

/-- The tokens of relabelled trees. -/
theorem tokensAll_relabel : ∀ ts : List Tree, tokensAll (ts.map (relabel φ)) = (tokensAll ts).map φ
  | [] => rfl
  | t :: ts => by
      rw [List.map_cons, tokensAll, tokensAll, tokens_relabel t, tokensAll_relabel ts, List.map_append]

end

mutual

/-- A tree is nested as deeply elsewhere. -/
theorem depthIn_relabel : ∀ t : Tree, depthIn (relabel φ t) = depthIn t
  | .token t => by simp [depthIn]
  | .group b opening inner closing => by simp [depthIn, depth_relabel inner]

/-- Relabelled trees are nested as deeply. -/
theorem depth_relabel : ∀ ts : List Tree, depth (ts.map (relabel φ)) = depth ts
  | [] => rfl
  | t :: ts => by rw [List.map_cons, depth, depth, depthIn_relabel t, depth_relabel ts]

end

/-! ### Trees without open brackets -/

mutual

/-- Whether every bracket of a tree is closed. -/
def isClosed : Tree → Bool
  | token _ => true
  | group _ _ inner (.present _) => areClosed inner
  | group _ _ _ (.absent _) => false

/-- Whether every bracket of some trees is closed. -/
def areClosed : List Tree → Bool
  | [] => true
  | t :: ts => isClosed t && areClosed ts

end

/-- Trees are closed one by one. -/
theorem areClosed_iff {ts : List Tree} : areClosed ts = true ↔ ∀ t ∈ ts, t.isClosed = true := by
  induction ts with
  | nil => simp [areClosed]
  | cons t ts ih => simp [areClosed, ih]

mutual

@[simp] theorem isClosed_relabel : ∀ t : Tree, isClosed (relabel φ t) = isClosed t
  | .token t => by simp [isClosed]
  | .group _ _ inner (.present _) => by simp [isClosed, Closing.relabel, areClosed_relabel inner]
  | .group _ _ _ (.absent _) => by simp [isClosed, Closing.relabel]

@[simp] theorem areClosed_relabel : ∀ ts : List Tree, areClosed (ts.map (relabel φ)) = areClosed ts
  | [] => rfl
  | t :: ts => by rw [List.map_cons, areClosed, areClosed, isClosed_relabel t, areClosed_relabel ts]

end

mutual

/-- To change nothing leaves a closed tree. -/
theorem relabel_none : ∀ t : Tree, isClosed t = true → relabel .none t = t
  | .token _, _ => rfl
  | .group b opening inner (.present closing), h => by
      rw [relabel_group, map_relabel_none inner h]
      rfl
  | .group _ _ _ (.absent _), h => absurd h Bool.false_ne_true

/-- To change nothing leaves closed trees. -/
theorem map_relabel_none : ∀ ts : List Tree, areClosed ts = true → ts.map (relabel .none) = ts
  | [], _ => rfl
  | t :: ts, h => by
      obtain ⟨ht, hts⟩ := Bool.and_eq_true_iff.mp h
      rw [List.map_cons, relabel_none t ht, map_relabel_none ts hts]

end

/-! ### Nesting -/

section Nesting

variable {φ} {t : Token}

@[simp] theorem bracketOpenedBy?_relabel : bracketOpenedBy? (φ t) = bracketOpenedBy? t := by
  simp [bracketOpenedBy?]

@[simp] theorem bracketClosedBy?_relabel : bracketClosedBy? (φ t) = bracketClosedBy? t := by
  simp [bracketClosedBy?]

variable (φ) in
/-- Trees that are the same once relabelled, but for the places where something is missed. -/
def Follow (ts ts' : List Tree) : Prop :=
  ts'.map (relabel .none) = ts.map (relabel φ)

variable (φ) in
/-- The same for open brackets. -/
structure Opened.Follows (o o' : Opened) : Prop where
  bracket : o'.bracket = o.bracket
  opening : o'.opening = φ o.opening
  before : Follow φ o.before o'.before

/-- What follows some trees begins with the same text. -/
theorem Follow.isText_head? {ts ts' : List Tree} (h : Follow φ ts ts') (s : String) :
    ts'.head?.any (isText s) = ts.head?.any (isText s) := by
  have := congrArg (fun us => us.head?.any (isText s)) h
  simpa [List.head?_map, Option.any_map, Function.comp_def] using this

theorem Opened.isLoopHeader_eq (o : Opened) : o.isLoopHeader = o.before.head?.any (isText "for") := by
  unfold isLoopHeader
  cases o.before <;> rfl

/-- An open bracket ends at a semicolon or not, wherever it is. -/
theorem Opened.Follows.endsAtSemicolon {o o' : Opened} (h : o.Follows φ o') :
    o'.endsAtSemicolon = o.endsAtSemicolon := by
  have hheader : o'.isLoopHeader = o.isLoopHeader := by
    rw [isLoopHeader_eq, isLoopHeader_eq, h.before.isText_head?]
  rw [Opened.endsAtSemicolon, hheader, h.bracket, Opened.endsAtSemicolon]

namespace Pass

/-- A closed group follows a closed group. -/
theorem closeInto_follow {o o' : Opened} {level level' : List Tree} {closing closing' : Closing}
    (ho : o.Follows φ o') (hlevel : Follow φ level level')
    (hclosing : closing'.relabel .none = closing.relabel φ) :
    Follow φ (closeInto o level closing) (closeInto o' level' closing') := by
  have hbefore := ho.before
  have hreverse := congrArg List.reverse hlevel
  simp only [Follow, closeInto, List.map_cons, relabel_group, List.map_reverse] at *
  rw [ho.bracket, ho.opening, hbefore, hreverse, hclosing]
  rfl

/-- Brackets that are given up, and the trees of the level behind them. -/
theorem giveUp_follow {p : Opened → Bool} (hp : ∀ o o', o.Follows φ o' → p o' = p o) (place place' : Nat)
    {opened opened' : List Opened} (hopened : List.Forall₂ (Opened.Follows φ) opened opened')
    {level level' : List Tree} (hlevel : Follow φ level level') :
    List.Forall₂ (Opened.Follows φ) (giveUp p place opened level).1 (giveUp p place' opened' level').1 ∧
      Follow φ (giveUp p place opened level).2 (giveUp p place' opened' level').2 := by
  induction hopened generalizing level level' with
  | nil => exact ⟨.nil, hlevel⟩
  | @cons o o' opened opened' ho hopened ih =>
      simp only [giveUp, hp o o' ho]
      split
      · exact ih (closeInto_follow ho hlevel rfl)
      · exact ⟨.cons ho hopened, hlevel⟩

variable (φ) in
/-- Two passes over the same tokens, before and after they are relabelled. -/
structure Follows (s s' : Pass) : Prop where
  opened : List.Forall₂ (Opened.Follows φ) s.opened s'.opened
  level : Follow φ s.level s'.level

theorem cons_token_follow {level level' : List Tree} (h : Follow φ level level') :
    Follow φ (.token t :: level) (.token (φ t) :: level') := by
  rw [Follow, List.map_cons, List.map_cons, h]
  rfl

variable {s s' : Pass}

/-- A token that is added follows the token. -/
theorem Follows.add (h : s.Follows φ s') : (s.add t).Follows φ (s'.add (φ t)) := by
  simp only [Pass.add, Relabelling.isText]
  split
  · have hgiveUp := giveUp_follow (fun _ _ ho => ho.endsAtSemicolon) s.reach s'.reach h.opened h.level
    exact ⟨hgiveUp.1, cons_token_follow hgiveUp.2⟩
  · exact ⟨h.opened, cons_token_follow h.level⟩

theorem any_bracket_eq {opened opened' : List Opened}
    (h : List.Forall₂ (Opened.Follows φ) opened opened') (b : Bracket) :
    opened'.any (·.bracket == b) = opened.any (·.bracket == b) := by
  induction h with
  | nil => rfl
  | cons ho _ ih => simp only [List.any_cons, ho.bracket, ih]

/-- A bracket that is left follows the bracket. -/
theorem Follows.leave (h : s.Follows φ s') (b : Bracket) : (s.leave b t).Follows φ (s'.leave b (φ t)) := by
  simp only [Pass.leave, any_bracket_eq h.opened b]
  split
  · have hgiveUp := giveUp_follow (p := (·.bracket != b)) (fun _ _ ho => by rw [ho.bracket])
      s.reach s'.reach h.opened h.level
    generalize giveUp (·.bracket != b) s.reach s.opened s.level = left at hgiveUp ⊢
    generalize giveUp (·.bracket != b) s'.reach s'.opened s'.level = left' at hgiveUp ⊢
    obtain ⟨opened, level⟩ := left
    obtain ⟨opened', level'⟩ := left'
    obtain ⟨hopened, hlevel⟩ := hgiveUp
    cases hopened with
    | nil => exact ⟨.nil, cons_token_follow hlevel⟩
    | cons ho hopened => exact ⟨hopened, closeInto_follow ho hlevel rfl⟩
  · exact ⟨h.opened, cons_token_follow h.level⟩

/-- One token on, a pass follows a pass. -/
theorem Follows.push (h : s.Follows φ s') : (s.push t).Follows φ (s'.push (φ t)) := by
  simp only [Pass.push, bracketOpenedBy?_relabel, bracketClosedBy?_relabel]
  split
  · exact ⟨.cons ⟨rfl, rfl, h.level⟩ h.opened, rfl⟩
  · exact h.leave _
  · exact h.add

/-- **A whole pass follows a pass.** -/
theorem Follows.foldl (h : s.Follows φ s') (ts : List Token) :
    (ts.foldl Pass.push s).Follows φ ((ts.map φ).foldl Pass.push s') := by
  induction ts generalizing s s' with
  | nil => exact h
  | cons t ts ih => exact ih h.push

end Pass

/-- The trees of relabelled tokens follow the trees. -/
theorem ofTokens_map_follow (φ : Relabelling) (ts : List Token) :
    Follow φ (ofTokens ts) (ofTokens (ts.map φ)) := by
  have hstart : Pass.Follows φ {} {} := ⟨.nil, rfl⟩
  have hfold := hstart.foldl ts
  have hgiveUp := (Pass.giveUp_follow (p := fun _ => true) (fun _ _ _ => rfl) (ts.foldl Pass.push {}).reach
    ((ts.map φ).foldl Pass.push {}).reach hfold.opened hfold.level).2
  simp only [Follow, ofTokens, Pass.trees, List.map_reverse] at hgiveUp ⊢
  rw [hgiveUp]

/-- **Relabelled tokens nest as the tokens did**, if no bracket is left open. -/
theorem ofTokens_map (φ : Relabelling) {ts : List Token} (h : areClosed (ofTokens ts) = true) :
    ofTokens (ts.map φ) = (ofTokens ts).map (relabel φ) := by
  have hfollow := ofTokens_map_follow φ ts
  have hclosed := congrArg areClosed hfollow
  rw [areClosed_relabel, areClosed_relabel, h] at hclosed
  rw [← hfollow, map_relabel_none _ hclosed]

end Nesting

end Tree

end InteropStubs
