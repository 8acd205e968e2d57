import InteropStubs.Proofs.Tree.Matched
import InteropStubs.Proofs.Tree.WellNested

/-!
# Orderly trees

Nesting leaves its trees *orderly*: groups stand between brackets that open and close them, no other token opens a
bracket or closes one that is around it, and no semicolon stands directly in a bracket that it would have ended
(`Tree.Orderly`). Unlike well-nested trees, orderly ones may hold headers of loops, brackets that are not closed, and
tokens that close nothing.

* `Tree.orderly_ofTokens`: all trees that nesting makes are orderly.
* `Tree.ofTokens_of_orderly`: some that follow one another, with all their brackets closed, are made again of their
  tokens alone.
* `Tree.Joins.ofTokens_eq`: so are trees that are put together, part by part (`Tree.Joins`).
-/

namespace InteropStubs.Tree

/-- A tree as nesting leaves it. The brackets `around` it are listed from the innermost on; `ends` says whether a
semicolon ends the innermost one, and `before` are the trees in front of the tree, the nearest first. -/
inductive Orderly : (around : List Bracket) → (ends : Bool) → (before : List Tree) → Tree → Prop
  | token {around : List Bracket} {ends : Bool} {before : List Tree} {t : Token} (hopen : bracketOpenedBy? t = none)
      (hclose : ∀ b ∈ around, bracketClosedBy? t ≠ some b) (hends : ends = true → t.isText ";" = false) :
      Orderly around ends before (.token t)
  | group {around : List Bracket} {ends : Bool} {before : List Tree} {b : Bracket} {opening : Token} {inner : List Tree}
      {closing : Closing} (hopen : bracketOpenedBy? opening = some b)
      (hclose : ∀ t, closing = .present t → bracketOpenedBy? t = none ∧ bracketClosedBy? t = some b)
      (hinner : ∀ u back, u :: back <:+ inner.reverse →
        Orderly (b :: around) (Opened.endsAtSemicolon ⟨b, opening, before⟩) back u) :
      Orderly around ends before (.group b opening inner closing)

/-- The same for all trees of a level, the nearest first. -/
def AreOrderly (around : List Bracket) (ends : Bool) (level : List Tree) : Prop :=
  ∀ u back, u :: back <:+ level → Orderly around ends back u

variable {around : List Bracket} {ends : Bool} {level level' before ts : List Tree} {t : Token} {u : Tree}
  {opened : List Opened}

theorem AreOrderly.nil : AreOrderly around ends [] := fun _ _ h => absurd (List.suffix_nil.mp h) (List.cons_ne_nil _ _)

theorem AreOrderly.of_suffix (h : AreOrderly around ends level) (hs : level' <:+ level) :
    AreOrderly around ends level' :=
  fun u back hu => h u back (hu.trans hs)

theorem AreOrderly.cons (h : AreOrderly around ends level) (hu : Orderly around ends level u) :
    AreOrderly around ends (u :: level) := by
  intro v back hv
  rcases List.suffix_cons_iff.mp hv with heq | hv
  · obtain ⟨rfl, rfl⟩ := List.cons.inj heq
    exact hu
  · exact h v back hv

/-! ### Nesting -/

/-- A semicolon closes no bracket. -/
theorem bracketClosedBy?_semicolon (h : t.isText ";" = true) : bracketClosedBy? t = none := by
  obtain ⟨hkind, htext⟩ : (t.kind = .word ∨ t.kind = .mark) ∧ t.text = ";" := by simpa [Token.isText] using h
  have hclosing : t.kind ≠ .conditional ∧ t.kind ≠ .closingQuote := by
    rcases hkind with hkind | hkind <;> rw [hkind] <;> decide
  simp [bracketClosedBy?, Token.isText, Token.isDirective, htext, hclosing]

namespace Pass

/-- Whether a semicolon ends the innermost of some brackets. -/
def endsAtSemicolon : List Opened → Bool
  | [] => false
  | o :: _ => o.endsAtSemicolon

/-- The trees of a pass are orderly on all its levels. -/
inductive Orderly : List Opened → List Tree → Prop
  | ground {level : List Tree} (h : AreOrderly [] false level) : Orderly [] level
  | more {o : Opened} {opened : List Opened} {level : List Tree} (hbelow : Orderly opened o.before)
      (hopen : bracketOpenedBy? o.opening = some o.bracket)
      (h : AreOrderly (o.bracket :: opened.map (·.bracket)) o.endsAtSemicolon level) : Orderly (o :: opened) level

namespace Orderly

theorem innermost (h : Orderly opened level) :
    AreOrderly (opened.map (·.bracket)) (endsAtSemicolon opened) level := by
  cases h with
  | ground h => exact h
  | more _ _ h => exact h

/-- One more tree on the innermost level. -/
theorem cons (h : Orderly opened level)
    (hu : Tree.Orderly (opened.map (·.bracket)) (endsAtSemicolon opened) level u) : Orderly opened (u :: level) := by
  cases h with
  | ground h => exact .ground (h.cons hu)
  | more hbelow hopen h => exact .more hbelow hopen (h.cons hu)

theorem closeInto {o : Opened} {closing : Closing} (h : Orderly (o :: opened) level)
    (hclose : ∀ t, closing = .present t → bracketOpenedBy? t = none ∧ bracketClosedBy? t = some o.bracket) :
    Orderly opened (closeInto o level closing) := by
  cases h with
  | more hbelow hopen h => exact hbelow.cons (.group hopen hclose (by rwa [List.reverse_reverse]))

theorem giveUp (p : Opened → Bool) (place : Nat) (h : Orderly opened level) :
    Orderly (giveUp p place opened level).1 (giveUp p place opened level).2 := by
  induction opened generalizing level with
  | nil => exact h
  | cons o opened ih =>
      rw [Pass.giveUp]
      split
      · exact ih (h.closeInto fun t ht => absurd ht (by simp))
      · exact h

theorem enter {b : Bracket} (h : Orderly opened level) (hopen : bracketOpenedBy? t = some b) :
    Orderly (⟨b, t, level⟩ :: opened) [] :=
  .more h hopen .nil

/-- A token that closes no bracket that is open. -/
theorem token (h : Orderly opened level) (hopen : bracketOpenedBy? t = none)
    (hclose : ∀ o ∈ opened, bracketClosedBy? t ≠ some o.bracket)
    (hends : endsAtSemicolon opened = true → t.isText ";" = false) : Orderly opened (.token t :: level) :=
  h.cons (.token hopen (List.forall_mem_map.mpr hclose) hends)

theorem leave {s : Pass} {b : Bracket} (h : Orderly s.opened s.level) (hopen : bracketOpenedBy? t = none)
    (hclose : bracketClosedBy? t = some b) : Orderly (s.leave b t).opened (s.leave b t).level := by
  have hsemicolon : t.isText ";" = false := by
    rw [Bool.eq_false_iff]
    exact fun ht => absurd hclose (by simp [bracketClosedBy?_semicolon ht])
  unfold Pass.leave
  split
  · have hgiven := h.giveUp (·.bracket != b) s.reach
    have hhead := head?_giveUp (·.bracket != b) s.reach s.opened s.level
    generalize Pass.giveUp (·.bracket != b) s.reach s.opened s.level = left at hgiven hhead ⊢
    obtain ⟨_ | ⟨o, opened⟩, level⟩ := left
    · exact hgiven.token hopen (fun o ho => absurd ho List.not_mem_nil) fun _ => hsemicolon
    · obtain rfl : o.bracket = b := by simpa using hhead o rfl
      refine hgiven.closeInto fun u hu => ?_
      obtain rfl := Closing.present.inj hu
      exact ⟨hopen, hclose⟩
  · next hnone =>
    refine h.token hopen (fun o ho heq => hnone ?_) fun _ => hsemicolon
    obtain rfl : b = o.bracket := Option.some.inj (hclose.symm.trans heq)
    exact List.any_eq_true.mpr ⟨o, ho, beq_self_eq_true _⟩

theorem add {s : Pass} (h : Orderly s.opened s.level) (hopen : bracketOpenedBy? t = none)
    (hclose : bracketClosedBy? t = none) : Orderly (s.add t).opened (s.add t).level := by
  have hnone (opened : List Opened) : ∀ o ∈ opened, bracketClosedBy? t ≠ some o.bracket := fun o _ => by simp [hclose]
  unfold Pass.add
  split
  · have hhead := head?_giveUp Opened.endsAtSemicolon s.reach s.opened s.level
    refine (h.giveUp Opened.endsAtSemicolon s.reach).token hopen (hnone _) fun hends => ?_
    -- the bracket at which giving up stops is not ended
    generalize (Pass.giveUp Opened.endsAtSemicolon s.reach s.opened s.level).1 = opened at hhead hends
    cases opened with
    | nil => exact absurd hends Bool.false_ne_true
    | cons o opened => exact absurd hends (by simp [endsAtSemicolon, hhead o rfl])
  · next hsemicolon => exact h.token hopen (hnone _) fun _ => Bool.eq_false_iff.mpr hsemicolon

theorem push {s : Pass} (h : Orderly s.opened s.level) (t : Token) : Orderly (s.push t).opened (s.push t).level := by
  unfold Pass.push
  split
  · next hopen => exact h.enter hopen
  · next hopen hclose => exact h.leave hopen hclose
  · next hopen hclose => exact h.add hopen hclose

theorem foldl {s : Pass} (h : Orderly s.opened s.level) (ts : List Token) :
    Orderly (ts.foldl Pass.push s).opened (ts.foldl Pass.push s).level := by
  induction ts generalizing s with
  | nil => exact h
  | cons t ts ih => exact ih (h.push t)

end Orderly

end Pass

/-- **Nesting makes orderly trees.** -/
theorem orderly_ofTokens (ts : List Token) : AreOrderly [] false (ofTokens ts).reverse := by
  have hstart : Pass.Orderly (({} : Pass).opened) (({} : Pass).level) := .ground .nil
  have hgiven := (hstart.foldl ts).giveUp (fun _ => true) (ts.foldl Pass.push {}).reach
  rw [giveUp_all] at hgiven
  rw [ofTokens, Pass.trees, List.reverse_reverse]
  exact hgiven.innermost

/-! ### Nesting again -/

namespace Pass

variable {s : Pass}

/-- A pass has come to a place that may be nested as another one: no more brackets are around it, a semicolon ends the
innermost one at most if it did there, and a header of a loop is expected just if it was there. -/
structure Suits (around : List Bracket) (ends : Bool) (before : List Tree) (s : Pass) : Prop where
  brackets : ∀ o ∈ s.opened, o.bracket ∈ around
  ends : endsAtSemicolon s.opened = true → ends = true
  loop : s.level.head?.any (isText "for") = before.head?.any (isText "for")

/-- Trees are complete one after the other. -/
theorem completes_of_forall (hone : ∀ u back, u :: back <:+ ts.reverse ++ before → u.isClosed = true →
    ∀ s : Pass, s.Suits around ends back → s.Completes [u]) (hclosed : areClosed ts = true)
    (hs : s.Suits around ends before) : s.Completes ts := by
  induction ts generalizing before s with
  | nil => exact ⟨s.reach, rfl⟩
  | cons u ts ih =>
      obtain ⟨hu, hts⟩ := Bool.and_eq_true_iff.mp hclosed
      rw [List.reverse_cons, List.append_assoc, List.singleton_append] at hone
      refine (hone u before (List.suffix_append _ _) hu s hs).append fun reach => ?_
      exact ih hone hts ⟨hs.brackets, hs.ends, rfl⟩

/-- **An orderly tree is complete** where it suits, if its brackets are closed. -/
theorem completes_of_orderly (h : Tree.Orderly around ends before u) (hclosed : u.isClosed = true)
    (hs : s.Suits around ends before) : s.Completes [u] := by
  induction h generalizing s with
  | @token around ends before t hopen hclose hends =>
      cases hclosing : bracketClosedBy? t with
      | none =>
          refine completes_token hopen hclosing fun ht o ho => ?_
          rw [Bool.eq_false_iff]
          intro ho'
          have hended : endsAtSemicolon s.opened = true := by
            obtain ⟨opened, hopened⟩ := List.head?_eq_some_iff.mp ho
            rwa [hopened]
          exact absurd ht (by simp [hends (hs.ends hended)])
      | some b =>
          -- the token closes nothing here either
          have hnone : s.opened.any (·.bracket == b) = false := by
            refine List.any_eq_false.mpr fun o ho heq => ?_
            obtain rfl := eq_of_beq heq
            exact hclose _ (hs.brackets o ho) hclosing
          refine ⟨t.reach, ?_⟩
          simp [tokensAll, tokens, push, hopen, hclosing, leave, hnone]
  | @group around ends before b opening inner closing hopen hclose hinner ih =>
      cases closing with
      | absent place => exact absurd hclosed Bool.false_ne_true
      | present closing =>
          obtain ⟨hnone, hcloses⟩ := hclose closing rfl
          have hends : Opened.endsAtSemicolon ⟨b, opening, s.level⟩ = Opened.endsAtSemicolon ⟨b, opening, before⟩ := by
            simp only [Opened.endsAtSemicolon, Opened.isLoopHeader_eq, hs.loop]
          have hinside : Suits (b :: around) (Opened.endsAtSemicolon ⟨b, opening, before⟩) []
              ⟨⟨b, opening, s.level⟩ :: s.opened, [], opening.reach⟩ := by
            refine ⟨List.forall_mem_cons.mpr ⟨List.mem_cons_self, fun o ho => ?_⟩, fun h => hends ▸ h, rfl⟩
            exact List.mem_cons_of_mem _ (hs.brackets o ho)
          refine completes_group hopen hnone hcloses (completes_of_forall (fun u back hu hclosed s hs => ?_) hclosed hinside)
          rw [List.append_nil] at hu
          exact ih u back hu hclosed hs

end Pass

/-- **Trees that follow one another** are made again of their tokens, if their brackets are closed and no header of a
loop is expected in front of them. -/
theorem ofTokens_of_orderly (h : AreOrderly around ends (ts.reverse ++ before))
    (hloop : before.head?.any (isText "for") = false) (hclosed : areClosed ts = true) :
    ofTokens (tokensAll ts) = ts := by
  have hstart : Pass.Suits around ends before {} :=
    ⟨fun o ho => absurd ho List.not_mem_nil, fun h => absurd h Bool.false_ne_true, hloop.symm⟩
  exact ofTokens_of_completes <| Pass.completes_of_forall
    (fun u back hu hclosed s hs => Pass.completes_of_orderly (h u back hu) hclosed hs) hclosed hstart

/-! ### Trees put together -/

/-- An orderly tree is so behind other trees as well, once it is relabelled. -/
theorem Orderly.relabel (φ : Relabelling) {before' : List Tree} (h : Orderly around ends before u)
    (hloop : before'.head?.any (isText "for") = before.head?.any (isText "for")) :
    Orderly around ends before' (u.relabel φ) := by
  induction h generalizing before' with
  | token hopen hclose hends =>
      rw [relabel_token]
      exact .token (by simpa using hopen) (by simpa using hclose) (by simpa using hends)
  | @group around ends before b opening inner closing hopen hclose hinner ih =>
      have hsemicolon : Opened.endsAtSemicolon ⟨b, φ opening, before'⟩ = Opened.endsAtSemicolon ⟨b, opening, before⟩ := by
        simp only [Opened.endsAtSemicolon, Opened.isLoopHeader_eq, hloop]
      rw [relabel_group]
      refine .group (by simpa using hopen) (fun t ht => ?_) fun u back hu => ?_
      · cases closing with
        | present closing =>
            obtain rfl := Closing.present.inj ht
            simpa using hclose closing rfl
        | absent place => exact absurd ht (by simp [Closing.relabel])
      · rw [← List.map_reverse, List.suffix_map_iff] at hu
        obtain ⟨level, hlevel, heq⟩ := hu
        obtain ⟨v, back, rfl⟩ := List.exists_cons_of_ne_nil (by rintro rfl; simp at heq : level ≠ [])
        obtain ⟨rfl, rfl⟩ := List.cons.inj heq
        rw [hsemicolon]
        exact ih v back hlevel (by simp [List.head?_map, Option.any_map])

/-- Orderly trees are so behind other trees as well, once they are relabelled. -/
theorem AreOrderly.relabel (φ : Relabelling) {before' : List Tree} (h : AreOrderly around ends (ts.reverse ++ before))
    (hbefore : AreOrderly around ends before')
    (hloop : before'.head?.any (isText "for") = before.head?.any (isText "for")) :
    AreOrderly around ends ((ts.map (Tree.relabel φ)).reverse ++ before') := by
  induction ts generalizing before before' with
  | nil => exact hbefore
  | cons u ts ih =>
      rw [List.reverse_cons, List.append_assoc, List.singleton_append] at h
      rw [List.map_cons, List.reverse_cons, List.append_assoc, List.singleton_append]
      have hu := h u before (List.suffix_append _ _)
      exact ih h (hbefore.cons (hu.relabel φ hloop)) (by simp)

/-- Some trees may stand behind orderly ones, unless a header of a loop is expected there, and it is not behind them. -/
def Joins (around : List Bracket) (ts : List Tree) : Prop :=
  ∀ before, AreOrderly around false before → before.head?.any (isText "for") = false →
    AreOrderly around false (ts.reverse ++ before) ∧ (ts.reverse ++ before).head?.any (isText "for") = false

namespace Joins

theorem nil : Joins around [] := fun _ h hloop => ⟨h, hloop⟩

theorem append {us : List Tree} (hts : Joins around ts) (hus : Joins around us) : Joins around (ts ++ us) :=
  fun before h hloop => by
    obtain ⟨h, hloop⟩ := hts before h hloop
    rw [List.reverse_append, List.append_assoc]
    exact hus _ h hloop

/-- Orderly trees, once they are relabelled. -/
theorem relabel (φ : Relabelling) (h : AreOrderly around false (ts.reverse ++ before))
    (hbefore : before.head?.any (isText "for") = false)
    (hlast : ∀ before : List Tree, ((ts.map (Tree.relabel φ)).reverse ++ before).head?.any (isText "for") = false) :
    Joins around (ts.map (Tree.relabel φ)) := fun before' h' hloop =>
  ⟨h.relabel φ h' (hloop.trans hbefore.symm), hlast before'⟩

/-- A block behind some trees. -/
theorem block {opening closing : Token} {inner : List Tree}
    (hts : ∀ before, AreOrderly around false before → before.head?.any (isText "for") = false →
      AreOrderly around false (ts.reverse ++ before))
    (hopen : bracketOpenedBy? opening = some .curly)
    (hclose : bracketOpenedBy? closing = none ∧ bracketClosedBy? closing = some .curly)
    (hinner : Joins (.curly :: around) inner) :
    Joins around (ts ++ [.group .curly opening inner (.present closing)]) := fun before h hloop => by
  rw [List.reverse_append, List.reverse_singleton, List.append_assoc, List.singleton_append]
  refine ⟨(hts before h hloop).cons (.group hopen (fun t ht => ?_) ?_), rfl⟩
  · obtain rfl := Closing.present.inj ht
    exact hclose
  · have hlevel := (hinner [] .nil rfl).1
    rwa [List.append_nil] at hlevel

/-- **Trees that are put together** are made again of their tokens. -/
theorem ofTokens_eq (h : Joins [] ts) (hclosed : areClosed ts = true) : ofTokens (tokensAll ts) = ts :=
  ofTokens_of_orderly (h [] .nil rfl).1 rfl hclosed

end Joins

end InteropStubs.Tree
