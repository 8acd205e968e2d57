import InteropStubs.Proofs.Node.Namespace
import InteropStubs.Proofs.Node.Severed

/-!
# Nodes of decorated declarations

However the declarations of a file are decorated, its nodes stay the same, but for their places, if nothing has a fault
and all are items of the file (`Node.bare_ofTrees_of_placed`), or else if none of them is broken
(`Node.bare_ofTrees_of_decorated`).

* `Node.Decorated.severed`: decorated declarations are cut off one by one.
* `Node.Decorated.map_bareIn_eq`: each becomes the node that it was, and so do the members of its body.
-/

namespace InteropStubs.Node

open Phrase Rule

variable {scope : Scope} {depth depth' : Nat} {ts run run' : List Tree} {runs runs' : List (List Tree)} {n : Node}

/-! ### Runs -/

/-- A run that is cut off from a list, all nodes of which go into stubs. -/
structure Kept (depth : Nat) (scope : Scope) (run : List Tree) : Prop where
  cut : ∃ ts, run ∈ Tree.runs scope ts
  spelled : Tree.Spelled run
  depth_le : Tree.depth run ≤ depth
  nodes : ∀ k ∈ allIn (ofRun (ofTreesWithin depth) scope run), k.isStubbed = true ∧ k.HasOneBase

/-- A run without faults. -/
structure Faultless (depth : Nat) (run : List Tree) : Prop where
  spelled : Tree.Spelled run
  depth_le : Tree.depth run ≤ depth
  fault : fault? run = none

namespace Kept

theorem of_mem_runs (hspelled : Tree.Spelled ts) (hdepth : Tree.depth ts ≤ depth)
    (hnodes : ∀ k ∈ all (ofTreesWithin (depth + 1) scope ts), k.isStubbed = true ∧ k.HasOneBase)
    (hrun : run ∈ Tree.runs scope ts) : Kept depth scope run where
  cut := ⟨ts, hrun⟩
  spelled := hspelled.of_subset fun t ht => flatten_runs scope ts ▸ List.mem_flatten.mpr ⟨run, hrun, ht⟩
  depth_le := (depth_le_of_mem_runs hrun).trans hdepth
  nodes k hk := hnodes k <| by
    rw [(ofTreesWithin_eq_map fun n hn => (hnodes n hn).1).1, all_eq_flatMap, List.flatMap_map]
    exact List.mem_flatMap.mpr ⟨run, hrun, hk⟩

theorem hasError (h : Kept depth scope run) : (ofRun (ofTreesWithin depth) scope run).hasError = false :=
  hasError_of_isStubbed _ fun k hk => (h.nodes k hk).1

theorem declaration? (h : Kept depth scope run) :
    Node.declaration? (ofTreesWithin depth) scope run = some (ofRun (ofTreesWithin depth) scope run) :=
  declaration?_of_ofRun h.hasError

theorem areClosed (h : Kept depth scope run) : Tree.areClosed run = true :=
  areClosed_of_fault? run (fault?_of_ofRun h.hasError)

/-- The node of the run itself. -/
theorem node (h : Kept depth scope run) : (ofRun (ofTreesWithin depth) scope run).isStubbed = true ∧
    (ofRun (ofTreesWithin depth) scope run).HasOneBase :=
  h.nodes _ (allIn_eq _ ▸ List.mem_cons_self)

end Kept

namespace Faultless

theorem of_mem (hspelled : Tree.Spelled runs.flatten) (hdepth : Tree.depth runs.flatten ≤ depth)
    (hfault : fault? runs.flatten = none) (hrun : run ∈ runs) : Faultless depth run := by
  have hsubset : run ⊆ runs.flatten := fun t ht => List.mem_flatten.mpr ⟨run, hrun, ht⟩
  refine ⟨hspelled.of_subset hsubset, Tree.depth_le_iff.mpr fun t ht => ?_, fault?_eq_none_iff.mpr fun t ht => ?_⟩
  · exact Tree.depth_le_iff.mp hdepth t (hsubset ht)
  · exact fault?_eq_none_iff.mp hfault t (hsubset ht)

theorem areClosed (h : Faultless depth run) : Tree.areClosed run = true :=
  areClosed_of_fault? run h.fault

end Faultless

/-! ### Bodies -/

theorem ofTreesWithin_bodyOf (hdepth : Tree.depth run ≤ depth) :
    ofTreesWithin (depth - 1 + 1) .body (bodyOf run) = ofTreesWithin depth .body (bodyOf run) := by
  rcases inside_bodyOf run with hnil | ⟨b, opening, closing, hgroup⟩
  · rw [hnil, ofTreesWithin_nil, ofTreesWithin_nil]
  · have hlt := (Tree.depth_lt_of_mem hgroup).trans_le hdepth
    rw [Nat.sub_add_cancel (Nat.zero_lt_of_lt hlt)]

theorem depth_bodyOf_le (hdepth : Tree.depth run ≤ depth) : Tree.depth (bodyOf run) ≤ depth - 1 := by
  rcases inside_bodyOf run with hnil | ⟨b, opening, closing, hgroup⟩
  · exact hnil ▸ Nat.zero_le _
  · exact Nat.le_sub_one_of_lt ((Tree.depth_lt_of_mem hgroup).trans_le hdepth)

theorem spelled_bodyOf (hspelled : Tree.Spelled run) : Tree.Spelled (bodyOf run) := by
  rcases inside_bodyOf run with hnil | ⟨b, opening, closing, hgroup⟩
  · exact hnil ▸ fun _ ht => absurd ht List.not_mem_nil
  · exact (hspelled.of_mem hgroup).inner

theorem fault?_bodyOf (hfault : fault? run = none) : fault? (bodyOf run) = none := by
  rcases inside_bodyOf run with hnil | ⟨b, opening, closing, hgroup⟩
  · exact hnil ▸ rfl
  · have hgroup := fault?_eq_none_iff.mp hfault _ hgroup
    rw [faultIn?.eq_def] at hgroup
    dsimp only at hgroup
    exact (Option.or_eq_none_iff.mp (Option.orElse_eq_or ▸ hgroup)).1

/-- The members of a body without faults are faultless. -/
theorem Faultless.member {members : List (List Tree)} (h : Faultless depth run) (hmembers : bodyOf run = members.flatten) :
    ∀ member ∈ members, Faultless (depth - 1) member := fun _ =>
  .of_mem (hmembers ▸ spelled_bodyOf h.spelled) (hmembers ▸ depth_bodyOf_le h.depth_le) (hmembers ▸ fault?_bodyOf h.fault)

/-! ### Cutting -/

theorem DecoratedSingle.exists_declaration (h : DecoratedSingle scope run run') (hkept : Kept depth scope run)
    (hfaultless : Faultless depth' run') : ∃ n', Node.declaration? (ofTreesWithin depth') scope run' = some n' ∧
      n'.bareIn = (ofRun (ofTreesWithin depth) scope run).bareIn :=
  h.declaration? hkept.spelled hfaultless.spelled hkept.declaration? hkept.node.1

/-- **Decorated declarations** are cut off one by one. -/
theorem Decorated.severed (h : Decorated scope runs runs') (hkept : ∀ run ∈ runs, Kept depth scope run)
    (hfaultless : ∀ run' ∈ runs', Faultless depth' run') : ∀ run' ∈ runs', Severed scope run' := by
  induction h with
  | nil => exact nofun
  | single h _ ih =>
      obtain ⟨hrun, hruns⟩ := List.forall_mem_cons.mp hkept
      obtain ⟨hrun', hruns'⟩ := List.forall_mem_cons.mp hfaultless
      refine List.forall_mem_cons.mpr ⟨?_, ih hruns hruns'⟩
      obtain ⟨ts, hcut⟩ := hrun.cut
      obtain ⟨n', hd, hbare⟩ := h.exists_declaration hrun hrun'
      have hstubbed : n'.isStubbed = true := by
        rw [← isStubbed_bareIn, hbare, isStubbed_bareIn]
        exact hrun.node.1
      exact h.severed hcut hrun.spelled hrun'.spelled hrun'.areClosed hd hstubbed
  | block h _ _ _ _ ih =>
      obtain ⟨hrun, hruns⟩ := List.forall_mem_cons.mp hkept
      obtain ⟨hrun', hruns'⟩ := List.forall_mem_cons.mp hfaultless
      refine List.forall_mem_cons.mpr ⟨?_, ih hruns hruns'⟩
      obtain ⟨ts, hcut⟩ := hrun.cut
      exact h.severed hcut hrun'.spelled hrun'.areClosed hrun.declaration?

theorem runs_flatten (hsevered : ∀ run ∈ runs, Severed scope run) (hspelled : Tree.Spelled runs.flatten) :
    Tree.runs scope runs.flatten = runs := by
  have hnone : Tree.Parted [] := nofun
  have happend := runs_flatten_append hsevered hnone (by rwa [List.append_nil])
  simpa [Tree.runs, Run.cut] using happend

/-! ### Nodes -/

/-- The nodes of a list are those of another one if they are so run by run. -/
theorem bare_of_map_bareIn_eq (hnodes : ∀ k ∈ all (ofTreesWithin (depth + 1) scope ts), k.isStubbed = true)
    (hruns : Tree.runs scope runs'.flatten = runs')
    (hmap : runs'.map (fun run' => (ofRun (ofTreesWithin depth') scope run').bareIn) =
      (Tree.runs scope ts).map fun run => (ofRun (ofTreesWithin depth) scope run).bareIn) :
    bare (ofTreesWithin (depth' + 1) scope runs'.flatten) = bare (ofTreesWithin (depth + 1) scope ts) := by
  obtain ⟨heq, hstubbed⟩ := ofTreesWithin_eq_map hnodes
  have heq' : ofTreesWithin (depth' + 1) scope runs'.flatten = runs'.map (ofRun (ofTreesWithin depth') scope) := by
    rw [ofTreesWithin, hruns]
    refine ofRuns_eq_map fun run' hrun' => ?_
    have hmem : (ofRun (ofTreesWithin depth') scope run').bareIn ∈ (Tree.runs scope ts).map fun run =>
        (ofRun (ofTreesWithin depth) scope run).bareIn := hmap ▸ List.mem_map.mpr ⟨run', hrun', rfl⟩
    obtain ⟨run, hrun, hsame⟩ := List.mem_map.mp hmem
    rw [← isStubbed_bareIn, ← hsame, isStubbed_bareIn]
    exact hstubbed run hrun _ (allIn_eq _ ▸ List.mem_cons_self)
  rw [heq, heq', bare_eq_map, bare_eq_map, List.map_map, List.map_map]
  exact hmap

/-- Whether a run is an item of a file, if it begins as a namespace or interface. -/
def Placed (run : List Tree) : Prop :=
  (∃ mid, Leaves (Tree.ruleDepth run) blockStart run mid) → (fileItemWith (anyGroup .curly)).fits run = true

/-- What is not broken in a file is placed. -/
theorem placed_of_hasError {read : Scope → List Tree → List Node} (h : hasError (ofRun read .file run) = false) :
    Placed run := by
  rintro ⟨mid, hstart⟩
  exact fits_of_blockStart (Nat.le_refl _) hstart (declaration?_of_ofRun h)

/-- A directive begins otherwise. -/
theorem placed_of_usingDirective {words : List String} (h : (usingDirectiveBut words).fits run = true) : Placed run := by
  rintro ⟨mid, hstart⟩
  exact absurd hstart (not_leaves_blockStart (leaves_nil_iff.mpr (List.contains_iff_mem.mp h)))

theorem placed_of_namespaceParts (s : NamespaceParts) : Placed s.trees :=
  fun _ => s.fits_fileItem

/-- A namespace or interface that is decorated otherwise becomes the same node, but for its place, if its body does
so. -/
theorem DecoratedBlock.bareIn_eq (h : DecoratedBlock run run') (hkept : Kept depth scope run)
    (hfaultless : Faultless depth' run')
    (hplaced : scope = .file → Placed run') :
    (ofRun (ofTreesWithin depth) scope run).members = ofTreesWithin depth .body (bodyOf run) ∧
      (bare (ofTreesWithin depth' .body (bodyOf run')) = bare (ofTreesWithin depth .body (bodyOf run)) →
        (ofRun (ofTreesWithin depth') scope run').bareIn = (ofRun (ofTreesWithin depth) scope run).bareIn) := by
  have hplace : scope = .file → (fileItemWith (anyGroup .curly)).fits run' = true :=
    fun hscope => hplaced hscope h.begins.2
  obtain ⟨hmembers, hdeclaration⟩ := h.declaration? hkept.spelled hfaultless.spelled hkept.areClosed
    hfaultless.areClosed hkept.declaration? hkept.node.1 hkept.node.2 hplace
  refine ⟨hmembers, fun hbody => ?_⟩
  obtain ⟨n', hd, hbare⟩ := hdeclaration hbody
  rw [ofRun_of_declaration? hfaultless.fault hd, hbare]

/-- **Decorated declarations** become the same nodes, but for their places, if in a file they are items of it. -/
theorem Decorated.map_bareIn_eq (h : Decorated scope runs runs') : ∀ {depth depth' : Nat},
    (∀ run ∈ runs, Kept depth scope run) → (∀ run' ∈ runs', Faultless depth' run') →
    (scope = .file → ∀ run' ∈ runs', Placed run') →
      runs'.map (fun run' => (ofRun (ofTreesWithin depth') scope run').bareIn) =
        runs.map fun run => (ofRun (ofTreesWithin depth) scope run).bareIn := by
  induction h with
  | nil => exact fun _ _ _ => rfl
  | single h _ ih =>
      intro depth depth' hkept hfaultless hplaced
      obtain ⟨hrun, hruns⟩ := List.forall_mem_cons.mp hkept
      obtain ⟨hrun', hruns'⟩ := List.forall_mem_cons.mp hfaultless
      obtain ⟨n', hd, hbare⟩ := h.exists_declaration hrun hrun'
      rw [List.map_cons, List.map_cons, ofRun_of_declaration? hrun'.fault hd, hbare,
        ih hruns hruns' fun hscope => (List.forall_mem_cons.mp (hplaced hscope)).2]
  | @block scope run run' runs runs' members' h hbody hmembers _ ihbody ih =>
      intro depth depth' hkept hfaultless hplaced
      obtain ⟨hrun, hruns⟩ := List.forall_mem_cons.mp hkept
      obtain ⟨hrun', hruns'⟩ := List.forall_mem_cons.mp hfaultless
      obtain ⟨hnode, hbare⟩ := h.bareIn_eq hrun hrun' fun hscope => (List.forall_mem_cons.mp (hplaced hscope)).1
      have hinner : ∀ k ∈ all (ofTreesWithin (depth - 1 + 1) .body (bodyOf run)), k.isStubbed = true ∧ k.HasOneBase := by
        rw [ofTreesWithin_bodyOf hrun.depth_le, ← hnode]
        exact fun k hk => hrun.nodes k (allIn_eq _ ▸ List.mem_cons_of_mem _ hk)
      have hkeptMembers : ∀ member ∈ Tree.runs .body (bodyOf run), Kept (depth - 1) .body member := fun _ =>
        .of_mem_runs (spelled_bodyOf hrun.spelled) (depth_bodyOf_le hrun.depth_le) hinner
      have hmap := ihbody hkeptMembers (hrun'.member hmembers) nofun
      have hcut := runs_flatten (hbody.severed hkeptMembers (hrun'.member hmembers))
        (hmembers ▸ spelled_bodyOf hrun'.spelled)
      have hbody := bare_of_map_bareIn_eq (fun k hk => (hinner k hk).1) hcut hmap
      rw [← hmembers, ofTreesWithin_bodyOf hrun.depth_le, ofTreesWithin_bodyOf hrun'.depth_le] at hbody
      rw [List.map_cons, List.map_cons, hbare hbody,
        ih hruns hruns' fun hscope => (List.forall_mem_cons.mp (hplaced hscope)).2]

/-! ### Files -/

/-- A node that is made of a run is not broken, if no node of the list is. -/
theorem hasError_of_ofRuns {node : List Tree → Node} (block : Option Token)
    (h : anyHasError (ofRuns node block runs) = false) : ∀ run ∈ runs, hasError (node run) = false := by
  induction runs generalizing block with
  | nil => exact nofun
  | cons run runs ih =>
      simp only [ofRuns, anyHasError, Bool.or_eq_false_iff] at h
      refine List.forall_mem_cons.mpr ⟨?_, ih _ h.2⟩
      -- a brace that is laid to the charge of a statement is an error itself
      have hfirst := h.1
      split at hfirst
      · split at hfirst
        · exact absurd hfirst.symm Bool.false_ne_true
        · exact hfirst
      · exact hfirst

theorem noShebang_of_decorated (h : Decorated .file runs runs') (hkept : ∀ run ∈ runs, Kept depth .file run)
    (hnone : NoShebang runs.flatten) : NoShebang runs'.flatten := by
  rintro _ hfirst u rfl hshebang
  have halone : Run.isAlone (.token u) = true := by
    obtain ⟨kind, _, _, _, _⟩ := u
    obtain rfl : kind = .shebang := hshebang
    rfl
  -- Only the first tree counts: tokens keep their kinds, and a block does not begin with a token that stands alone.
  cases h with
  | nil => exact absurd hfirst nofun
  | @single _ run run' runs runs' h _ =>
      obtain ⟨husing, φ, -, rfl⟩ := h
      obtain ⟨t, ht⟩ := token_mem_of_usingDirective husing
      obtain ⟨v, vs, rfl⟩ := List.exists_cons_of_ne_nil (List.ne_nil_of_mem ht)
      have hfirst := Option.some.inj hfirst
      cases v with
      | group => simp at hfirst
      | token v =>
          obtain rfl : φ v = u := by simpa using hfirst
          exact hnone _ rfl v rfl (by rwa [φ.kind] at hshebang)
  | @block _ run run' runs runs' members' h _ _ _ =>
      obtain ⟨ts, hcut⟩ := (hkept run List.mem_cons_self).cut
      obtain ⟨mid, hstart⟩ := h.begins.2
      obtain ⟨t, ht⟩ := token_mem_of_blockStart hstart
      obtain ⟨u, us, rfl⟩ := List.exists_cons_of_ne_nil (List.ne_nil_of_mem ht)
      have hfirst' := h.isAlone_eq_false (fun t us heq => eq_nil_of_isAlone (heq ▸ hcut)) rfl
      obtain rfl := Option.some.inj hfirst
      exact absurd halone (by simp [hfirst'])

theorem kept_of_mem_runs (hspelled : Tree.Spelled ts)
    (hnodes : ∀ k ∈ all (ofTrees ts), k.isStubbed = true ∧ k.HasOneBase) :
    ∀ run ∈ Tree.runs .file ts, Kept (Tree.depth ts) .file run := by
  rw [ofTrees_of_noShebang (noShebang_of_isStubbed fun k hk => (hnodes k hk).1)] at hnodes
  exact fun _ => .of_mem_runs hspelled (Nat.le_refl _) hnodes

/-- No line in front of decorated declarations is set apart from them. -/
theorem ofTrees_of_decorated (hspelled : Tree.Spelled ts)
    (hnodes : ∀ k ∈ all (ofTrees ts), k.isStubbed = true ∧ k.HasOneBase)
    (h : Decorated .file (Tree.runs .file ts) runs') :
    ofTrees runs'.flatten = ofTreesWithin (Tree.depth runs'.flatten + 1) .file runs'.flatten := by
  have hshebang := noShebang_of_isStubbed fun k hk => (hnodes k hk).1
  exact ofTrees_of_noShebang
    (noShebang_of_decorated h (kept_of_mem_runs hspelled hnodes) (by rwa [flatten_runs]))

theorem faultless_of_mem (hspelled : Tree.Spelled runs.flatten) (hfault : fault? runs.flatten = none) :
    ∀ run ∈ runs, Faultless (Tree.depth runs.flatten) run :=
  fun _ => .of_mem hspelled (Nat.le_refl _) hfault

/-- **The nodes of a file** stay the same, but for their places, if its declarations are decorated otherwise, nothing
has a fault and all are items of the file. -/
theorem bare_ofTrees_of_placed (hspelled : Tree.Spelled ts) (hspelled' : Tree.Spelled runs'.flatten)
    (hnodes : ∀ k ∈ all (ofTrees ts), k.isStubbed = true ∧ k.HasOneBase) (h : Decorated .file (Tree.runs .file ts) runs')
    (hfault : fault? runs'.flatten = none) (hplaced : ∀ run' ∈ runs', Placed run') :
    bare (ofTrees runs'.flatten) = bare (ofTrees ts) := by
  have hkept := kept_of_mem_runs hspelled hnodes
  have hfaultless := faultless_of_mem hspelled' hfault
  have hruns := runs_flatten (h.severed hkept hfaultless) hspelled'
  have hshebang := noShebang_of_isStubbed fun k hk => (hnodes k hk).1
  rw [ofTrees_of_decorated hspelled hnodes h]
  rw [ofTrees_of_noShebang hshebang] at hnodes ⊢
  exact bare_of_map_bareIn_eq (fun k hk => (hnodes k hk).1) hruns (h.map_bareIn_eq hkept hfaultless fun _ => hplaced)

/-- So they do if none of them is broken. -/
theorem bare_ofTrees_of_decorated (hspelled : Tree.Spelled ts) (hspelled' : Tree.Spelled runs'.flatten)
    (hnodes : ∀ k ∈ all (ofTrees ts), k.isStubbed = true ∧ k.HasOneBase) (h : Decorated .file (Tree.runs .file ts) runs')
    (hsound : anyHasError (ofTrees runs'.flatten) = false) : bare (ofTrees runs'.flatten) = bare (ofTrees ts) := by
  rw [ofTrees_of_decorated hspelled hnodes h] at hsound
  have herror := hasError_of_ofRuns none hsound
  have hfault : fault? runs'.flatten = none := by
    rw [← flatten_runs .file runs'.flatten, fault?_eq_none_iff]
    intro t ht
    obtain ⟨run, hrun, ht⟩ := List.mem_flatten.mp ht
    exact fault?_eq_none_iff.mp (fault?_of_ofRun (herror run hrun)) t ht
  have hsevered := h.severed (kept_of_mem_runs hspelled hnodes) (faultless_of_mem hspelled' hfault)
  rw [runs_flatten hsevered hspelled'] at herror
  exact bare_ofTrees_of_placed hspelled hspelled' hnodes h hfault fun run' hrun' => placed_of_hasError (herror run' hrun')

end InteropStubs.Node
