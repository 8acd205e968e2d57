import InteropStubs.Proofs.Node.Bare
import InteropStubs.Proofs.Tree.Matched

/-!
# Seams

A place in a file is a *seam* if a declaration starts there, or the brace that closes the body of one
(`Node.SeamIn`). Such a place is apart from everything that is kept as it is written (`Node.Apart`), so the
gap in front of it makes no difference.

* `Node.bare_ofTreesWithin`: the nodes of relabelled trees, where only the gap at one place is changed and that
  place is apart.
* `Node.SeamIn.apart`: seams are apart.
-/

namespace InteropStubs.Node

/-- No token of a run starts at a place, but for the first one and what is in braces; and what is in
braces satisfies `q`. -/
def ApartFrom (p : Nat) (q : List Tree → Prop) (run : List Tree) : Prop :=
  (∀ u ∈ (Tree.tokensAll (run.filter fun t => !t.isBraces)).tail, u.start ≠ p) ∧
    ∀ opening inner closing, .group .curly opening inner (.present closing) ∈ run → q inner

/-- A place is apart from the runs of a list, and from those in their braces. -/
def Apart (p : Nat) : (depth : Nat) → Scope → List Tree → Prop
  | 0, _, _ => True
  | depth + 1, scope, ts => ∀ run ∈ Tree.runs scope ts, ApartFrom p (Apart p depth .body) run

/-! ### Nodes of relabelled trees -/

variable {φ : Relabelling} {p : Nat} {scope : Scope} {ts : List Tree} {node : List Tree → Node}

@[simp] theorem isStubbed_bareIn (n : Node) : n.bareIn.isStubbed = n.isStubbed := by
  cases n <;> rfl

/-- A stubbed node takes no brace on its account. -/
theorem closingBrace?_of_isStubbed {n : Node} (h : n.isStubbed = true) (run : List Tree) :
    closingBrace? n run = none := by
  cases n <;> first | rfl | exact absurd h Bool.false_ne_true

/-- The node of a run, and those of the runs behind it. -/
theorem ofRuns_none_cons (node : List Tree → Node) (run : List Tree) (runs : List (List Tree)) :
    ofRuns node none (run :: runs) = node run :: ofRuns node (closingBrace? (node run) run) runs :=
  rfl

/-- Nodes that go into stubs are made run by run. -/
theorem ofRuns_eq_map {runs : List (List Tree)} (h : ∀ run ∈ runs, (node run).isStubbed = true) :
    ofRuns node none runs = runs.map node := by
  induction runs with
  | nil => rfl
  | cons run runs ih =>
      obtain ⟨hrun, hruns⟩ := List.forall_mem_cons.mp h
      rw [ofRuns_none_cons, closingBrace?_of_isStubbed hrun, ih hruns, List.map_cons]

/-- Where all nodes of some runs are stubbed, each run by itself becomes a stubbed node. -/
theorem isStubbed_of_ofRuns {runs : List (List Tree)} (h : ∀ n ∈ ofRuns node none runs, n.isStubbed = true) :
    ∀ run ∈ runs, (node run).isStubbed = true := by
  induction runs with
  | nil => exact nofun
  | cons run runs ih =>
      rw [ofRuns_none_cons] at h
      obtain ⟨hrun, hruns⟩ := List.forall_mem_cons.mp h
      rw [closingBrace?_of_isStubbed hrun] at hruns
      exact List.forall_mem_cons.mpr ⟨hrun, ih hruns⟩

/-- The nodes of a list, where all of them go into stubs. -/
theorem ofTreesWithin_eq_map {depth : Nat}
    (h : ∀ n ∈ all (ofTreesWithin (depth + 1) scope ts), n.isStubbed = true) :
    ofTreesWithin (depth + 1) scope ts =
        (Tree.runs scope ts).map (ofRun (ofTreesWithin depth) scope) ∧
      ∀ run ∈ Tree.runs scope ts, ∀ n ∈ allIn (ofRun (ofTreesWithin depth) scope run), n.isStubbed = true := by
  have heq : ofTreesWithin (depth + 1) scope ts =
      (Tree.runs scope ts).map (ofRun (ofTreesWithin depth) scope) :=
    ofRuns_eq_map (isStubbed_of_ofRuns fun n hn => h n (mem_all_of_mem hn))
  refine ⟨heq, fun run hrun n hn => h n ?_⟩
  rw [heq, all_eq_flatMap, List.flatMap_map]
  exact List.mem_flatMap.mpr ⟨run, hrun, hn⟩

/-- The runs of a list make up the list. -/
theorem flatten_runs (scope : Scope) (ts : List Tree) : (Tree.runs scope ts).flatten = ts :=
  flatten_cut scope 0 ts

/-- A run is nested no deeper than the list. -/
theorem depth_le_of_mem_runs {run : List Tree} (hrun : run ∈ Tree.runs scope ts) : Tree.depth run ≤ Tree.depth ts :=
  Tree.depth_le_iff.mpr fun t ht => Tree.depth_le_iff.mp (Nat.le_refl _) t
    (flatten_runs scope ts ▸ List.mem_flatten.mpr ⟨run, hrun, ht⟩)

/-- Nothing becomes no nodes. -/
theorem ofTreesWithin_nil (depth : Nat) (scope : Scope) : ofTreesWithin depth scope [] = [] := by
  cases depth <;> rfl

/-- **The nodes of relabelled trees** are the nodes of the trees, but for their places, if both depths are
enough. -/
theorem bare_ofTreesWithin (hφ : ∀ t : Token, t.start ≠ p → (φ t).gap = t.gap) (depth : Nat) :
    ∀ depth' scope ts, depth ≤ depth' → Tree.depth ts < depth → Apart p depth scope ts →
      (∀ n ∈ all (ofTreesWithin depth scope ts), n.isStubbed = true) →
        bare (ofTreesWithin depth' scope (ts.map (Tree.relabel φ))) = bare (ofTreesWithin depth scope ts) := by
  induction depth with
  | zero => exact fun _ _ _ _ h => absurd h (Nat.not_lt_zero _)
  | succ depth ih =>
      intro depth' scope ts hdepths hdepth hapart hstubbed
      obtain ⟨depth', rfl⟩ := Nat.exists_eq_add_one.mpr (Nat.zero_lt_of_lt hdepths)
      obtain ⟨heq, hruns⟩ := ofTreesWithin_eq_map hstubbed
      -- Relabelled trees are cut into the same runs, so the nodes are compared run by run.
      have hrun : ∀ run ∈ Tree.runs scope ts,
          (ofRun (ofTreesWithin depth') scope (run.map (Tree.relabel φ))).bareIn =
            (ofRun (ofTreesWithin depth) scope run).bareIn := by
        intro run hrun
        have hsteady : Tree.Steady φ run := fun u hu => hφ u ((hapart run hrun).1 u hu)
        refine bareIn_ofRun hsteady (hruns run hrun) fun inner hbraced hmembers => ?_
        rcases hbraced with rfl | ⟨opening, closing, hgroup⟩
        · rw [List.map_nil, ofTreesWithin_nil, ofTreesWithin_nil]
        · have hinner := (Tree.depth_lt_of_mem hgroup).trans_le (depth_le_of_mem_runs hrun)
          refine ih depth' .body inner (Nat.le_of_succ_le_succ hdepths) (by omega)
            ((hapart run hrun).2 _ _ _ hgroup) fun n hn => hruns run hrun n ?_
          rw [allIn_eq, hmembers]
          exact List.mem_cons_of_mem _ hn
      have heq' : ofTreesWithin (depth' + 1) scope (ts.map (Tree.relabel φ)) =
          (Tree.runs scope (ts.map (Tree.relabel φ))).map (ofRun (ofTreesWithin depth') scope) := by
        refine ofRuns_eq_map fun run' hrun' => ?_
        rw [Tree.runs_relabel] at hrun'
        obtain ⟨run, hmem, rfl⟩ := List.mem_map.mp hrun'
        rw [← isStubbed_bareIn, hrun run hmem, isStubbed_bareIn]
        exact hruns run hmem _ (allIn_eq _ ▸ List.mem_cons_self)
      rw [heq, heq', Tree.runs_relabel, bare_eq_map, bare_eq_map, List.map_map, List.map_map, List.map_map]
      exact List.map_congr_left hrun

/-- Some trees do not begin with an interpreter line. -/
def NoShebang (ts : List Tree) : Prop :=
  ∀ t ∈ ts.head?, (∀ u, t = .token u → u.kind ≠ .shebang)

theorem NoShebang.append {us : List Tree} (hts : NoShebang ts) (hus : NoShebang us) : NoShebang (ts ++ us) := by
  cases ts with
  | nil => exact hus
  | cons t ts => exact hts

/-- Without an interpreter line all trees are in the runs of the file. -/
theorem ofTrees_of_noShebang (h : NoShebang ts) :
    ofTrees ts = ofTreesWithin (Tree.depth ts + 1) .file ts := by
  rcases ts with _ | ⟨t | ⟨b, opening, inner, closing⟩, ts⟩
  · rfl
  · exact if_neg (h _ rfl t rfl)
  · rfl

/-- Where all nodes are stubbed, there is no interpreter line. -/
theorem noShebang_of_isStubbed (h : ∀ n ∈ all (ofTrees ts), n.isStubbed = true) : NoShebang ts := by
  rintro _ ht t rfl hshebang
  obtain ⟨rest, rfl⟩ := List.head?_eq_some_iff.mp ht
  have hnode : other (spanOf [.token t]) .shebang [] ∈ all (ofTrees (.token t :: rest)) := by
    refine mem_all_of_mem ?_
    rw [ofTrees, if_pos hshebang]
    exact List.mem_cons_self
  exact absurd (h _ hnode) Bool.false_ne_true

theorem NoShebang.relabel (h : NoShebang ts) (φ : Relabelling) : NoShebang (ts.map (Tree.relabel φ)) := by
  rintro _ ht t rfl
  rcases ts with _ | ⟨u | _, ts⟩
  · exact absurd ht nofun
  · obtain rfl : φ u = t := by simpa using ht
    rw [φ.kind]
    exact h _ rfl u rfl
  · simp at ht

/-! ### Seams are apart -/

/-- A run starts at a place, or it has a group in braces that closes there or of which the inside
satisfies `q`. -/
def HasSeam (p : Nat) (q : List Tree → Prop) (run : List Tree) : Prop :=
  p = Tree.startOf run ∨ ∃ opening inner closing,
    .group .curly opening inner (.present closing) ∈ run ∧ (p = closing.start ∨ q inner)

/-- A declaration starts at a place, or the brace stands there that closes the body of one. -/
def SeamIn (p : Nat) : (depth : Nat) → Scope → List Tree → Prop
  | 0, _, _ => False
  | depth + 1, scope, ts => ∃ run ∈ Tree.runs scope ts, HasSeam p (SeamIn p depth .body) run

/-- All tokens of some trees start at places of their own. -/
def Distinct (ts : List Tree) : Prop :=
  ((Tree.tokensAll ts).map Token.start).Nodup

variable {run inner : List Tree} {t g : Tree} {u w : Token} {opening closing : Token} {depth : Nat}

/-- Tokens in different parts start at different places. -/
theorem start_ne_of_ne {α : Type} {l : List α} {f : α → List Token}
    (h : ((l.flatMap f).map Token.start).Nodup) {a b : α} (ha : a ∈ l) (hb : b ∈ l) (hne : a ≠ b)
    (hu : u ∈ f a) (hw : w ∈ f b) : u.start ≠ w.start := by
  obtain ⟨before, after, rfl⟩ := List.append_of_mem ha
  rw [List.flatMap_append, List.flatMap_cons, List.map_append, List.map_append] at h
  obtain ⟨-, hrest, hbefore⟩ := List.nodup_append.mp h
  have hu := List.mem_map_of_mem (f := Token.start) hu
  have hw {l : List α} (hl : b ∈ l) : w.start ∈ (l.flatMap f).map Token.start :=
    List.mem_map_of_mem (List.mem_flatMap.mpr ⟨b, hl, hw⟩)
  intro heq
  rcases List.mem_append.mp hb with hb | hb
  · exact hbefore _ (hw hb) _ (List.mem_append_left _ hu) heq.symm
  · have hb := (List.mem_cons.mp hb).resolve_left hne.symm
    exact (List.nodup_append.mp hrest).2.2 _ hu _ (hw hb) heq

/-- The tokens of the runs are those of the list. -/
theorem tokensAll_runs (scope : Scope) (ts : List Tree) :
    (Tree.runs scope ts).flatMap Tree.tokensAll = Tree.tokensAll ts := by
  have hall (rs : List (List Tree)) : rs.flatMap Tree.tokensAll = Tree.tokensAll rs.flatten := by
    induction rs with
    | nil => rfl
    | cons r rs ih => rw [List.flatMap_cons, ih, List.flatten_cons, Tree.tokensAll_append]
  rw [hall, flatten_runs]

namespace Distinct

/-- Among distinct tokens all that is left over is distinct. -/
theorem of_sublist {us : List Tree} (h : Distinct ts) (hus : (Tree.tokensAll us).Sublist (Tree.tokensAll ts)) :
    Distinct us :=
  List.Nodup.sublist (hus.map _) h

/-- Tokens of two runs are apart. -/
theorem runs_ne {run' : List Tree} (h : Distinct ts) (hrun : run ∈ Tree.runs scope ts)
    (hrun' : run' ∈ Tree.runs scope ts) (hne : run ≠ run') (hu : u ∈ Tree.tokensAll run)
    (hw : w ∈ Tree.tokensAll run') : u.start ≠ w.start := by
  rw [Distinct, ← tokensAll_runs scope] at h
  exact start_ne_of_ne h hrun hrun' hne hu hw

/-- Tokens of two trees are apart. -/
theorem trees_ne (h : Distinct ts) (ht : t ∈ ts) (hg : g ∈ ts) (hne : t ≠ g) (hu : u ∈ t.tokens)
    (hw : w ∈ g.tokens) : u.start ≠ w.start := by
  rw [Distinct, Tree.tokensAll_eq_flatMap] at h
  exact start_ne_of_ne h ht hg hne hu hw

end Distinct

/-- The tokens of a run are among those of the list. -/
theorem tokensAll_sublist_of_mem_runs (h : run ∈ Tree.runs scope ts) :
    (Tree.tokensAll run).Sublist (Tree.tokensAll ts) := by
  obtain ⟨before, after, hruns⟩ := List.append_of_mem h
  rw [← tokensAll_runs scope ts, hruns, List.flatMap_append, List.flatMap_cons]
  exact (List.sublist_append_left _ _).trans (List.sublist_append_right _ _)

theorem tokensAll_filter_sublist (q : Tree → Bool) (ts : List Tree) :
    (Tree.tokensAll (ts.filter q)).Sublist (Tree.tokensAll ts) := by
  induction ts with
  | nil => exact List.Sublist.refl _
  | cons t ts ih =>
      rw [List.filter_cons, Tree.tokensAll_cons]
      split
      · exact ih.append_left _
      · exact ih.trans (List.sublist_append_right _ _)

/-- The tokens in braces are among those of the run. -/
theorem tokensAll_sublist_of_group (h : .group .curly opening inner (.present closing) ∈ run) :
    (Tree.tokensAll inner).Sublist (Tree.tokensAll run) :=
  (Tree.tokensAll_sublist_tail h).trans (List.tail_sublist _)

/-- The place of the first token is apart from all that follows. -/
theorem Distinct.start_ne (hrun : Distinct run) (hu : u ∈ (Tree.tokensAll run).tail) :
    u.start ≠ Tree.startOf run := by
  obtain _ | ⟨t, rest⟩ := run
  · exact absurd hu List.not_mem_nil
  · obtain ⟨more, hmore⟩ := t.tokensAll_eq_head_cons rest
    rw [Distinct, hmore, List.map_cons, List.nodup_cons] at hrun
    rw [hmore, List.tail_cons] at hu
    exact fun heq => hrun.1 (List.mem_map.mpr ⟨u, hu, heq⟩)

/-- The place of the brace that closes a group is apart from what is inside. -/
theorem Distinct.closing_ne (hrun : Distinct run)
    (hgroup : .group .curly opening inner (.present closing) ∈ run) (hu : u ∈ Tree.tokensAll inner) :
    u.start ≠ closing.start := by
  obtain ⟨before, after, rfl⟩ := List.append_of_mem hgroup
  simp only [Distinct, Tree.tokensAll_append, Tree.tokensAll_cons, Tree.tokens, Closing.tokens,
    List.map_append, List.map_cons, List.map_nil, List.cons_append] at hrun
  have hmiddle := (List.nodup_cons.mp (List.nodup_append.mp hrun).2.1).2
  have hinner := (List.nodup_append.mp (List.nodup_append.mp hmiddle).1).2.2
  exact hinner _ (List.mem_map_of_mem hu) _ (List.mem_singleton_self _)

/-! #### Where no token starts -/

/-- A run without a token at a place is apart from it, if what is in its braces is. -/
theorem apartFrom_of_forall_ne {q : List Tree → Prop} (hq : ∀ ts, (∀ u ∈ Tree.tokensAll ts, u.start ≠ p) → q ts)
    (h : ∀ u ∈ Tree.tokensAll run, u.start ≠ p) : ApartFrom p q run :=
  ⟨fun u hu => h u ((tokensAll_filter_sublist _ run).subset (List.mem_of_mem_tail hu)),
    fun _ inner _ hgroup => hq inner fun u hu => h u ((tokensAll_sublist_of_group hgroup).subset hu)⟩

/-- A place where no token starts is apart from everything. -/
theorem apart_of_forall_ne (depth : Nat) :
    ∀ scope ts, (∀ u ∈ Tree.tokensAll ts, u.start ≠ p) → Apart p depth scope ts := by
  induction depth with
  | zero => exact fun _ _ _ => trivial
  | succ depth ih =>
      intro scope ts h run hrun
      exact apartFrom_of_forall_ne (ih .body) fun u hu =>
        h u ((tokensAll_sublist_of_mem_runs hrun).subset hu)

/-! #### Where a seam is -/

/-- A token begins at a seam of a run, if one begins at every seam in its braces. -/
theorem HasSeam.exists_token {q : List Tree → Prop} (hne : run ≠ [])
    (hq : ∀ ts, q ts → ∃ w ∈ Tree.tokensAll ts, w.start = p) (h : HasSeam p q run) :
    ∃ w ∈ Tree.tokensAll run, w.start = p := by
  rcases h with rfl | ⟨opening, inner, closing, hgroup, rfl | h⟩
  · obtain ⟨t, rest, rfl⟩ := List.exists_cons_of_ne_nil hne
    obtain ⟨more, hmore⟩ := t.tokensAll_eq_head_cons rest
    exact ⟨t.head, hmore ▸ List.mem_cons_self, rfl⟩
  · refine ⟨closing, ?_, rfl⟩
    rw [Tree.tokensAll_eq_flatMap]
    exact List.mem_flatMap.mpr ⟨_, hgroup, by simp [Tree.tokens, Closing.tokens]⟩
  · obtain ⟨w, hw, hp⟩ := hq inner h
    exact ⟨w, (tokensAll_sublist_of_group hgroup).subset hw, hp⟩

/-- A token starts at a seam. -/
theorem SeamIn.exists_token (h : SeamIn p depth scope ts) : ∃ w ∈ Tree.tokensAll ts, w.start = p := by
  induction depth generalizing scope ts with
  | zero => exact h.elim
  | succ depth ih =>
      obtain ⟨run, hrun, h⟩ := h
      obtain ⟨w, hw, hp⟩ := h.exists_token (ne_nil_of_mem_cut hrun) fun _ => ih
      exact ⟨w, (tokensAll_sublist_of_mem_runs hrun).subset hw, hp⟩

/-- A seam of a run is apart from what is kept of the run as it is written. -/
theorem HasSeam.apartFrom {q q' : List Tree → Prop} (hrun : Distinct run)
    (hne : ∀ ts, (∀ u ∈ Tree.tokensAll ts, u.start ≠ p) → q' ts)
    (hq : ∀ ts, q ts → ∃ w ∈ Tree.tokensAll ts, w.start = p) (hqq' : ∀ ts, Distinct ts → q ts → q' ts)
    (h : HasSeam p q run) : ApartFrom p q' run := by
  rcases h with rfl | ⟨opening, inner, closing, hgroup, h⟩
  · refine ⟨fun u hu => hrun.start_ne ((tokensAll_filter_sublist _ run).tail.subset hu), ?_⟩
    exact fun _ inner _ hgroup => hne inner fun u hu =>
      hrun.start_ne ((Tree.tokensAll_sublist_tail hgroup).subset hu)
  · -- the seam is in one group in braces, and so in no other tree of the run
    obtain ⟨w, hw, hp⟩ : ∃ w ∈ (Tree.group .curly opening inner (.present closing)).tokens, w.start = p := by
      rcases h with rfl | h
      · exact ⟨closing, by simp [Tree.tokens, Closing.tokens], rfl⟩
      · obtain ⟨w, hw, hp⟩ := hq inner h
        exact ⟨w, by simp [Tree.tokens, hw], hp⟩
    refine ⟨fun u hu => ?_, fun opening' inner' closing' hgroup' => ?_⟩
    · have hu := List.mem_of_mem_tail hu
      rw [Tree.tokensAll_eq_flatMap] at hu
      obtain ⟨t, ht, hu⟩ := List.mem_flatMap.mp hu
      obtain ⟨ht, hbraces⟩ := List.mem_filter.mp ht
      refine hp ▸ hrun.trees_ne ht hgroup (fun heq => ?_) hu hw
      simp [heq, Tree.isBraces] at hbraces
    · by_cases heq : Tree.group .curly opening' inner' (.present closing') =
          .group .curly opening inner (.present closing)
      · obtain ⟨-, -, rfl, -⟩ := Tree.group.inj heq
        rcases h with rfl | h
        · exact hne inner' fun u hu => hrun.closing_ne hgroup hu
        · exact hqq' inner' (hrun.of_sublist (tokensAll_sublist_of_group hgroup)) h
      · refine hne inner' fun u hu => hp ▸ hrun.trees_ne hgroup' hgroup heq ?_ hw
        simp [Tree.tokens, hu]

/-- **Seams are apart** from all that is kept as it is written. -/
theorem SeamIn.apart (h : SeamIn p depth scope ts) (hts : Distinct ts) : Apart p depth scope ts := by
  induction depth generalizing scope ts with
  | zero => exact h.elim
  | succ depth ih =>
      obtain ⟨run, hrun, h⟩ := h
      intro run' hrun'
      by_cases heq : run' = run
      · subst heq
        exact h.apartFrom (hts.of_sublist (tokensAll_sublist_of_mem_runs hrun))
          (apart_of_forall_ne depth .body) (fun _ => SeamIn.exists_token) fun _ hinner hseam => ih hseam hinner
      · obtain ⟨w, hw, rfl⟩ := h.exists_token (ne_nil_of_mem_cut hrun) fun _ => SeamIn.exists_token
        exact apartFrom_of_forall_ne (apart_of_forall_ne depth .body) fun u hu =>
          hts.runs_ne hrun' hrun heq hu hw

end InteropStubs.Node
