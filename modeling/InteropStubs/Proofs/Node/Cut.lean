import InteropStubs.Proofs.Node.Seam
import InteropStubs.Proofs.Node.Size

/-!
# Cutting lists behind one another

The runs of a list of items are cut off one after the other, and where the list ends makes no difference
(`Node.runs_append_of_isStubbed`). So the nodes of two lists, one behind the other, are those of each
(`Node.ofTreesWithin_append`).
-/

namespace InteropStubs.Node

open Phrase Rule

variable {scope : Scope} {depth : Nat} {run rest ts us : List Tree} {runs : List (List Tree)} {t : Tree} {n : Node}

/-! ### One run -/

theorem cut_append (scope : Scope) (us vs : List Tree) :
    Run.cut scope us.length (us ++ vs) = Run.cut scope 0 vs := by
  induction us with
  | nil => rfl
  | cons u us ih => exact ih

theorem runs_append (hsize : Run.size scope t (us ++ rest) = us.length + 1) :
    Tree.runs scope (t :: us ++ rest) = (t :: us) :: Tree.runs scope rest := by
  have hcut : Tree.runs scope (t :: us ++ rest) =
      (t :: (us ++ rest).take (Run.size scope t (us ++ rest) - 1)) ::
        Run.cut scope (Run.size scope t (us ++ rest) - 1) (us ++ rest) := rfl
  rw [hcut, hsize, Nat.add_sub_cancel, List.take_left, cut_append]
  rfl

/-- A list that is as long as its first run is that run. -/
theorem runs_singleton (hrun : run = t :: us) (hsize : Run.size scope t us = us.length + 1) :
    Tree.runs scope run = [run] := by
  subst hrun
  have happend := runs_append (by rwa [List.append_nil])
  rwa [List.append_nil] at happend

/-- What is a run of its own is cut off alone. -/
theorem eq_nil_of_isAlone {skip : Nat} (h : t :: us ∈ Run.cut scope skip ts) (ht : Run.isAlone t = true) :
    us = [] := by
  induction ts generalizing skip with
  | nil => cases skip <;> exact absurd h List.not_mem_nil
  | cons t' ts ih =>
      cases skip with
      | succ skip => exact ih h
      | zero =>
          rcases List.mem_cons.mp h with heq | h
          · obtain ⟨rfl, rfl⟩ := List.cons.inj heq
            have hone : Run.size scope t ts = 1 := by
              unfold Run.size
              exact if_pos ht
            rw [hone]
            rfl
          · exact ih h

/-- A run that is cut off in front of all that may follow, and that may follow others itself. -/
structure Severed (scope : Scope) (run : List Tree) : Prop where
  parted : ∀ rest, Tree.Parted (run ++ rest)
  runs : ∀ rest, Tree.Parted rest → Tree.Spelled rest → Tree.runs scope (run ++ rest) = run :: Tree.runs scope rest

/-- A run is severed if it has its size in front of all that may follow, and if in a file no item has another size. -/
theorem Severed.of_size (hne : run ≠ []) (hparted : ∀ rest, Tree.Parted (run ++ rest))
    (halone : ∀ t us, run = t :: us → Run.isAlone t = true → us = [])
    (hsize : ∀ rest, Tree.Parted rest → Run.declarationSize false (run ++ rest) = run.length)
    (hfile : scope = .file → ∀ rest size, Tree.Parted rest → Tree.Spelled rest →
      Run.fileItemSize? (run ++ rest) = some size → size = run.length) : Severed scope run := by
  refine ⟨hparted, fun rest hrest hspelled => ?_⟩
  obtain ⟨t, us, rfl⟩ := List.exists_cons_of_ne_nil hne
  refine runs_append ?_
  unfold Run.size
  split
  · next h => rw [halone t us rfl h]; rfl
  · cases scope with
    | file =>
        have hitem := hfile rfl rest
        rw [List.cons_append] at hitem
        dsimp only
        cases hsize' : Run.fileItemSize? (t :: (us ++ rest)) with
        | none => exact hsize rest hrest
        | some size => exact hitem size hrest hspelled hsize'
    | body => exact hsize rest hrest

/-- A declaration may follow others. -/
theorem Stubs.parted {read : List Tree → List Node} (h : Stubs read scope run n) (hne : run ≠ [])
    (hspelled : Tree.Spelled run) (rest : List Tree) : Tree.Parted (run ++ rest) := by
  obtain ⟨t, us, rfl⟩ := List.exists_cons_of_ne_nil hne
  intro _ ht
  obtain rfl := Option.some.inj ht
  have hnone {m : String} (hm : m ∈ [";", "="]) : t.isText m = false := by
    cases t with
    | group => rfl
    | token t =>
        have hmarks : ∀ m ∈ [";", "="], m ∈ Words.marks ∧ m ∈ "=" :: Token.touchy := by decide
        rw [Bool.eq_false_iff]
        intro htext
        exact h.not_begins (hmarks m hm).2 (hspelled.of_isText List.mem_cons_self (hmarks m hm).1 htext)
  exact ⟨hnone (by decide), hnone (by decide)⟩

/-! ### Runs behind one another -/

theorem runs_flatten_append (hruns : ∀ run ∈ runs, Severed scope run) (hus : Tree.Parted us)
    (hspelled : Tree.Spelled (runs.flatten ++ us)) :
    Tree.runs scope (runs.flatten ++ us) = runs ++ Tree.runs scope us := by
  induction runs with
  | nil => rfl
  | cons run runs ih =>
      obtain ⟨hrun, hruns⟩ := List.forall_mem_cons.mp hruns
      rw [List.flatten_cons, List.append_assoc] at hspelled ⊢
      have hrest := hspelled.of_subset (List.subset_append_right _ _)
      have hparted : Tree.Parted (runs.flatten ++ us) := by
        cases runs with
        | nil => exact hus
        | cons run' runs =>
            rw [List.flatten_cons, List.append_assoc]
            exact (hruns run' List.mem_cons_self).parted _
      rw [hrun.runs _ hparted hrest, ih hruns hrest, List.cons_append]

/-- **The runs of items** are cut off in front of all that may follow, in a file and in a body. -/
theorem severed_of_mem_runs (scope : Scope)
    (hstubbed : ∀ k ∈ all (ofTreesWithin (depth + 1) .file ts), k.isStubbed = true)
    (hspelled : Tree.Spelled ts) (hrun : run ∈ Tree.runs .file ts) : Item run ∧ Severed scope run := by
  have hnode := (ofTreesWithin_eq_map hstubbed).2 run hrun
  have herror := hasError_of_isStubbed _ hnode
  have hitem := item_of_declaration? (hnode _ (allIn_eq _ ▸ List.mem_cons_self)) (declaration?_of_ofRun herror)
  have hclosed : Tree.areClosed run = true := areClosed_of_fault? run (fault?_of_ofRun herror)
  have hrunSpelled : Tree.Spelled run := hspelled.of_subset fun t ht =>
    flatten_runs .file ts ▸ List.mem_flatten.mpr ⟨run, hrun, ht⟩
  have hne := ne_nil_of_mem_cut hrun
  exact ⟨hitem, .of_size hne ((stubs_of_ofRun hnode).parted hne hrunSpelled)
    (fun t us heq halone => eq_nil_of_isAlone (heq ▸ hrun) halone)
    (fun rest hrest => hitem.declarationSize_append hclosed hrunSpelled hrest)
    fun _ rest _ hrest hspelled => hitem.eq_length_of_fileItemSize? (hrunSpelled.append hspelled) hrest⟩

/-- **The runs of two lists of items** are those of each. -/
theorem runs_append_of_isStubbed (hstubbed : ∀ k ∈ all (ofTreesWithin (depth + 1) .file ts), k.isStubbed = true)
    (hus : Tree.Parted us) (hspelled : Tree.Spelled (ts ++ us)) :
    Tree.runs .file (ts ++ us) = Tree.runs .file ts ++ Tree.runs .file us := by
  have hts := hspelled.of_subset (List.subset_append_left _ _)
  have hflatten := runs_flatten_append (fun run hrun => (severed_of_mem_runs .file hstubbed hts hrun).2) hus
    (by rwa [flatten_runs])
  rwa [flatten_runs] at hflatten

/-- A list of items may follow others. -/
theorem parted_of_isStubbed (hstubbed : ∀ k ∈ all (ofTreesWithin (depth + 1) .file ts), k.isStubbed = true)
    (hspelled : Tree.Spelled ts) : Tree.Parted ts := by
  have hsevered : ∀ run ∈ Tree.runs .file ts, Severed .file run := fun run hrun =>
    (severed_of_mem_runs .file hstubbed hspelled hrun).2
  have hflatten := flatten_runs .file ts
  generalize Tree.runs .file ts = runs at hsevered hflatten
  cases runs with
  | nil => exact hflatten ▸ nofun
  | cons run runs => exact hflatten ▸ (hsevered run List.mem_cons_self).parted runs.flatten

/-- The last tree of a list of items is a semicolon, if it is a token. -/
theorem getLast?_of_isStubbed (hstubbed : ∀ k ∈ all (ofTreesWithin (depth + 1) scope ts), k.isStubbed = true)
    {s : String} (hs : s ≠ ";") : ts.getLast?.any (Tree.isText s) = false := by
  have hruns := (ofTreesWithin_eq_map hstubbed).2
  have hflatten := flatten_runs scope ts
  generalize Tree.runs scope ts = runs at hruns hflatten
  obtain rfl | ⟨before, run, rfl⟩ := List.eq_nil_or_concat runs
  · exact hflatten ▸ rfl
  · rw [List.concat_eq_append] at hruns hflatten
    obtain ⟨front, e, rfl, he⟩ := (stubs_of_ofRun (hruns run (by simp))).ends
    have hlast : ts.getLast? = some e := by simp [← hflatten]
    rw [hlast, Option.any_some]
    cases e with
    | group => rfl
    | token t =>
        have ht : t.isText ";" = true := he
        simp only [Token.isText, Bool.and_eq_true, beq_iff_eq] at ht
        simp [Tree.isText, Token.isText, ht.2, hs.symm]

/-! ### Nodes -/

theorem ofRuns_append {node : List Tree → Node} {runs' : List (List Tree)}
    (h : ∀ run ∈ runs, (node run).isStubbed = true) :
    ofRuns node none (runs ++ runs') = ofRuns node none runs ++ ofRuns node none runs' := by
  induction runs with
  | nil => rfl
  | cons run runs ih =>
      obtain ⟨hrun, hruns⟩ := List.forall_mem_cons.mp h
      rw [List.cons_append, ofRuns_none_cons, ofRuns_none_cons, closingBrace?_of_isStubbed hrun, ih hruns,
        List.cons_append]

/-- **The nodes of two lists of items** are those of each. -/
theorem ofTreesWithin_append (hstubbed : ∀ k ∈ all (ofTreesWithin (depth + 1) .file ts), k.isStubbed = true)
    (hus : Tree.Parted us) (hspelled : Tree.Spelled (ts ++ us)) :
    ofTreesWithin (depth + 1) .file (ts ++ us) =
      ofTreesWithin (depth + 1) .file ts ++ ofTreesWithin (depth + 1) .file us := by
  have hruns := (ofTreesWithin_eq_map hstubbed).2
  have hnode : ∀ run ∈ Tree.runs .file ts, (ofRun (ofTreesWithin depth) .file run).isStubbed = true :=
    fun run hrun => hruns run hrun _ (allIn_eq _ ▸ List.mem_cons_self)
  rw [ofTreesWithin, runs_append_of_isStubbed hstubbed hus hspelled, ofRuns_append hnode]
  rfl

end InteropStubs.Node
