import InteropStubs.Node.OfTrees
import InteropStubs.Proofs.Node.Broken
import InteropStubs.Proofs.Node.Reading
import InteropStubs.Proofs.Tree.Tokens

/-!
# Places of nodes

`Node.all` lists the nodes of a file in document order, a container before its members. Where no node
is broken, every node was read from a run of tokens that follow one another (`Node.ReadFrom`), and the
first tokens of the nodes stand in the order of the nodes (`Node.Located`).

* `Node.located_ofTrees`: so it is with the nodes that are made of trees, at every depth.
-/

namespace InteropStubs.Node

mutual

/-- A node and the nodes below it, in document order. -/
def allIn : Node → List Node
  | n@(namespaceBlock _ _ ms) | n@(interface _ _ ms) | n@(other _ _ ms) => n :: all ms
  | n@(usingDirective _) | n@(method ..) | n@(property ..) | n@(error ..) | n@(missing ..) => [n]

/-- The nodes at or below the nodes of a list, in document order. -/
def all : List Node → List Node
  | [] => []
  | n :: ns => allIn n ++ all ns

end

/-- What is at or below a node is the node and what is below it. -/
theorem allIn_eq (n : Node) : allIn n = n :: all n.members := by
  cases n <;> rfl

@[simp] theorem all_nil : all [] = [] := rfl

/-- What is at or below some nodes is so for one of them. -/
theorem all_eq_flatMap (ns : List Node) : all ns = ns.flatMap allIn := by
  induction ns with
  | nil => rfl
  | cons n ns ih => rw [all, ih, List.flatMap_cons]

@[simp] theorem all_append (ns ms : List Node) : all (ns ++ ms) = all ns ++ all ms := by
  simp [all_eq_flatMap]

/-- A list has an error if one of its parts has. -/
@[simp] theorem anyHasError_append (ns ms : List Node) :
    anyHasError (ns ++ ms) = (anyHasError ns || anyHasError ms) := by
  induction ns with
  | nil => rfl
  | cons n ns ih => simp [anyHasError, ih, Bool.or_assoc]

/-- Below a faultless node there is no error. -/
theorem anyHasError_members {n : Node} (h : hasError n = false) : anyHasError n.members = false := by
  cases n <;> first | exact h | rfl

theorem mem_all_of_mem {n : Node} {ns : List Node} (h : n ∈ ns) : n ∈ all ns := by
  rw [all_eq_flatMap]
  exact List.mem_flatMap.mpr ⟨n, h, allIn_eq n ▸ List.mem_cons_self⟩

mutual

/-- What is directly below a node of a tree is in the tree. -/
theorem mem_allIn_of_mem_members {k x : Node} (hx : x ∈ k.members) :
    ∀ n : Node, k ∈ allIn n → x ∈ allIn n
  | namespaceBlock _ _ ms, hk | interface _ _ ms, hk | other _ _ ms, hk => by
      rcases List.mem_cons.mp hk with rfl | hk
      · exact List.mem_cons_of_mem _ (mem_all_of_mem hx)
      · exact List.mem_cons_of_mem _ (mem_all_of_mem_members hx ms hk)
  | usingDirective _, hk | method .., hk | property .., hk | error .., hk | missing .., hk => by
      obtain rfl := List.mem_singleton.mp hk
      exact absurd hx List.not_mem_nil

/-- What is directly below a node of a file is a node of the file. -/
theorem mem_all_of_mem_members {k x : Node} (hx : x ∈ k.members) :
    ∀ ns : List Node, k ∈ all ns → x ∈ all ns
  | n :: ns, hk => by
      rcases List.mem_append.mp hk with hk | hk
      · exact List.mem_append_left _ (mem_allIn_of_mem_members hx n hk)
      · exact List.mem_append_right _ (mem_all_of_mem_members hx ns hk)

end

/-- The span of a run starts with the first token of the run and holds all of them. -/
theorem exists_span {run : List Tree} (hrun : run ≠ []) :
    ∃ t mid, Tree.tokensAll run = t :: mid ∧ spanOf run = ⟨t.start, Token.verbatim (t :: mid)⟩ := by
  obtain ⟨t, ts, rfl⟩ := List.exists_cons_of_ne_nil hrun
  obtain ⟨rest, htokens⟩ := t.tokensAll_eq_head_cons ts
  refine ⟨t.head, rest ++ Tree.tokensAll ts, htokens, ?_⟩
  rw [spanOf, Tree.verbatim, htokens]
  rfl

/-- What is kept of a declaration is what its reader makes of a run. -/
def Keeps (run : List Tree) : Node → Prop
  | namespaceBlock _ name _ => ∃ inner, Reader.whole? Reader.namespaceBlock run = some (name, inner)
  | interface _ header _ => ∃ inner, Reader.whole? Reader.interface run = some (header, inner)
  | method _ m => Reader.whole? Reader.method run = some m
  | property _ p => Reader.whole? Reader.property run = some p
  | usingDirective _ | other .. | error .. | missing .. => True

/-- A node was read from a run. -/
structure ReadFrom (run : List Tree) (n : Node) : Prop where
  nonempty : run ≠ []
  span : n.span = spanOf run
  keeps : n.Keeps run

/-- Nodes were read from some tokens: each from tokens that follow one another, and their first tokens
stand in document order. -/
structure Located (tokens : List Token) (ns : List Node) : Prop where
  starts : ((all ns).map fun n => n.span.start).Sublist (tokens.map Token.start)
  runs : ∀ n ∈ all ns, ∃ run, Tree.tokensAll run <:+: tokens ∧ n.ReadFrom run

namespace Located

variable {tokens : List Token} {ns : List Node}

theorem nil (tokens : List Token) : Located tokens [] :=
  ⟨List.nil_sublist _, nofun⟩

/-- Located nodes behind located nodes. -/
theorem append {more : List Token} {ms : List Node} (hn : Located tokens ns)
    (hm : Located more ms) : Located (tokens ++ more) (ns ++ ms) where
  starts := by
    rw [all_append, List.map_append, List.map_append]
    exact hn.starts.append hm.starts
  runs n h := by
    rw [all_append] at h
    rcases List.mem_append.mp h with h | h
    · obtain ⟨run, hrun, hread⟩ := hn.runs n h
      exact ⟨run, hrun.trans (List.prefix_append _ _).isInfix, hread⟩
    · obtain ⟨run, hrun, hread⟩ := hm.runs n h
      exact ⟨run, hrun.trans (List.suffix_append _ _).isInfix, hread⟩

/-- Located nodes are located among more tokens. -/
theorem of_infix {more : List Token} (hn : Located tokens ns) (h : tokens <:+: more) :
    Located more ns where
  starts := hn.starts.trans (h.sublist.map _)
  runs n hmem := by
    obtain ⟨run, hrun, hread⟩ := hn.runs n hmem
    exact ⟨run, hrun.trans h, hread⟩

/-- A node of a run, if its members were read from what a group of the run holds. -/
theorem singleton {run inner : List Tree} {n : Node} (hread : n.ReadFrom run)
    (hinner : Reader.Inside inner run) (hn : Located (Tree.tokensAll inner) n.members) :
    Located (Tree.tokensAll run) [n] := by
  obtain ⟨t, ts, rfl⟩ := List.exists_cons_of_ne_nil hread.nonempty
  obtain ⟨rest, htokens⟩ := t.tokensAll_eq_head_cons ts
  have hall : all [n] = n :: all n.members := by simp [all, allIn_eq]
  have hsublist : (Tree.tokensAll inner).Sublist (rest ++ Tree.tokensAll ts) := by
    rcases hinner with rfl | ⟨b, opening, closing, hmem⟩
    · exact List.nil_sublist _
    · simpa [htokens] using Tree.tokensAll_sublist_tail hmem
  have hinfix : Tree.tokensAll inner <:+: Tree.tokensAll (t :: ts) := by
    rcases hinner with rfl | ⟨b, opening, closing, hmem⟩
    · exact List.nil_infix
    · exact Tree.tokensAll_isInfix_of_mem hmem
  constructor
  · rw [hall, htokens, List.map_cons, List.map_cons, hread.span]
    exact (hn.starts.trans (hsublist.map _)).cons_cons _
  · intro m hm
    rw [hall] at hm
    rcases List.mem_cons.mp hm with rfl | hm
    · exact ⟨t :: ts, List.infix_rfl, hread⟩
    · obtain ⟨run, hrun, hm⟩ := hn.runs m hm
      exact ⟨run, hrun.trans hinfix, hm⟩

end Located

/-! ### Declarations -/

/-- Whatever is read without a fault was read from the tokens of what is read. -/
def LocatesIn (read : List Tree → List Node) : Prop :=
  ∀ ts, anyHasError (read ts) = false → Located (Tree.tokensAll ts) (read ts)

/-- The body of a run is inside of it. -/
theorem inside_bodyOf (run : List Tree) : Reader.Inside (bodyOf run) run := by
  unfold bodyOf
  split
  · next b opening inner closing h =>
    exact .inr ⟨b, opening, closing, List.mem_reverse.mp (List.mem_of_find?_eq_some h)⟩
  · exact .inl rfl

variable {read : List Tree → List Node} {scope : Scope} {run : List Tree} {n : Node}

/-- A node without members is located by the run that it is made of. -/
theorem located_leaf (hn : n.ReadFrom run) (hmembers : n.members = []) :
    Located (Tree.tokensAll run) [n] :=
  .singleton hn (.inl rfl) (hmembers ▸ .nil _)

/-- A node with members is located if they are. -/
theorem located_container {inner : List Tree} (hread : LocatesIn read) (hfrom : n.ReadFrom run)
    (hinner : Reader.Inside inner run) (hmembers : n.members = read inner) (hn : hasError n = false) :
    Located (Tree.tokensAll run) [n] :=
  .singleton hfrom hinner <| hmembers ▸ hread inner (hmembers ▸ anyHasError_members hn)

/-- The node of a kind is located. -/
theorem located_ofKind (hread : LocatesIn read) (hrun : run ≠ []) {kind : Kind}
    (hn : hasError (ofKind read run kind) = false) :
    Located (Tree.tokensAll run) [ofKind read run kind] := by
  unfold ofKind at hn ⊢
  split at hn
  case h_4 => exact located_leaf ⟨hrun, rfl, trivial⟩ rfl
  all_goals exact located_container hread ⟨hrun, rfl, trivial⟩ (inside_bodyOf run) rfl hn

/-- A using directive is located. -/
theorem located_usingDirective? (hrun : run ≠ []) (h : usingDirective? scope run = some n) :
    Located (Tree.tokensAll run) [n] := by
  simp only [usingDirective?, Option.ite_none_right_eq_some, Option.some.injEq] at h
  exact h.2 ▸ located_leaf ⟨hrun, rfl, trivial⟩ rfl

/-- A namespace or a type is located. -/
theorem located_sharedDeclaration? (hread : LocatesIn read) (hrun : run ≠ [])
    (h : sharedDeclaration? read run = some n) (hn : hasError n = false) :
    Located (Tree.tokensAll run) [n] := by
  unfold sharedDeclaration? at h
  split at h
  · next name inner hr =>
    obtain rfl := Option.some.inj h
    exact located_container hread ⟨hrun, rfl, inner, hr⟩
      (Reader.braced_of_mem_namespaceBlock (Reader.mem_of_whole? hr)).inside rfl hn
  · split at h
    · next header inner hr =>
      obtain rfl := Option.some.inj h
      exact located_container hread ⟨hrun, rfl, inner, hr⟩
        (Reader.braced_of_mem_interface (Reader.mem_of_whole? hr)).inside rfl hn
    · obtain ⟨kind, -, rfl⟩ := Option.map_eq_some_iff.mp h
      exact located_ofKind hread hrun hn

/-- A member is located. -/
theorem located_member? (hrun : run ≠ []) (h : member? run = some n) :
    Located (Tree.tokensAll run) [n] := by
  unfold member? at h
  split at h
  · next m hm =>
    obtain rfl := Option.some.inj h
    exact located_leaf ⟨hrun, rfl, hm⟩ rfl
  · split at h
    · next p hp =>
      obtain rfl := Option.some.inj h
      exact located_leaf ⟨hrun, rfl, hp⟩ rfl
    · obtain ⟨kind, -, rfl⟩ := Option.map_eq_some_iff.mp h
      exact located_leaf ⟨hrun, rfl, trivial⟩ rfl

/-- Either a branch ends with a tree, or the tree belongs to the first branch. -/
theorem splitBranches_cons (t : Tree) (ts : List Tree) :
    (splitBranches (t :: ts)).1 = [] :: (splitBranches ts).1 ∨
      (splitBranches (t :: ts)).1 =
        (t :: (splitBranches ts).1.headD []) :: (splitBranches ts).1.tail := by
  simp only [splitBranches]
  split
  · split
    · exact .inl rfl
    · split
      · exact .inl rfl
      · exact .inr rfl
  · exact .inr rfl

/-- There is a branch before every mark of a conditional. -/
theorem splitBranches_eq_cons (ts : List Tree) :
    (splitBranches ts).1 = (splitBranches ts).1.headD [] :: (splitBranches ts).1.tail := by
  cases ts with
  | nil => rfl
  | cons t ts => rcases splitBranches_cons t ts with h | h <;> rw [h] <;> rfl

/-- The branches of a conditional, where some trees of the first one were passed already. -/
theorem located_splitBranches (hread : LocatesIn read) (before ts : List Tree)
    (h : anyHasError (((before ++ (splitBranches ts).1.headD []) :: (splitBranches ts).1.tail).flatMap
      read) = false) :
    Located (Tree.tokensAll (before ++ ts))
      (((before ++ (splitBranches ts).1.headD []) :: (splitBranches ts).1.tail).flatMap read) := by
  induction ts generalizing before with
  | nil => simpa [splitBranches] using hread before (by simpa [splitBranches] using h)
  | cons t ts ih =>
      rcases splitBranches_cons t ts with hsplit | hsplit
      · rw [hsplit] at h ⊢
        simp only [List.headD_cons, List.append_nil, List.tail_cons, List.flatMap_cons,
          anyHasError_append, Bool.or_eq_false_iff] at h ⊢
        rw [splitBranches_eq_cons] at h ⊢
        have hrest := ih [] h.2
        rw [List.nil_append, List.nil_append] at hrest
        rw [Tree.tokensAll_append]
        exact (hread before h.1).append
          (hrest.of_infix (Tree.tokensAll_isInfix (List.suffix_cons t ts).isInfix))
      · rw [hsplit] at h ⊢
        have := ih (before ++ [t]) (by simpa using h)
        simpa using this

/-- **A faultless declaration is located.** -/
theorem located_declaration? {read : Scope → List Tree → List Node}
    (hread : ∀ scope, LocatesIn (read scope)) (hrun : run ≠ [])
    (h : declaration? read scope run = some n) (hn : hasError n = false) :
    Located (Tree.tokensAll run) [n] := by
  unfold declaration? at h
  split at h
  · next opening inner closing =>
    simp only [Option.ite_none_right_eq_some, Option.some.injEq] at h
    obtain ⟨-, rfl⟩ := h
    refine .singleton ⟨hrun, rfl, trivial⟩ (.inr ⟨_, opening, closing, List.mem_cons_self⟩) ?_
    have hmembers := anyHasError_members hn
    simp only [members] at hmembers ⊢
    rw [splitBranches_eq_cons] at hmembers ⊢
    exact located_splitBranches (hread scope) [] inner hmembers
  · rcases Option.or_eq_some_iff.mp (Option.orElse_eq_or ▸ h) with h | ⟨-, h⟩
    · exact located_usingDirective? hrun h
    · split at h
      · rcases Option.or_eq_some_iff.mp (Option.orElse_eq_or ▸ h) with h | ⟨-, h⟩
        · exact located_sharedDeclaration? (hread _) hrun h hn
        · exact located_member? hrun h
      · rcases Option.or_eq_some_iff.mp (Option.orElse_eq_or ▸ h) with h | ⟨-, h⟩
        · rw [Option.ite_none_right_eq_some] at h
          exact located_sharedDeclaration? (hread _) hrun h.2 hn
        · obtain ⟨kind, -, rfl⟩ := Option.map_eq_some_iff.mp h
          exact located_leaf ⟨hrun, rfl, trivial⟩ rfl

/-! ### Faults leave broken nodes -/

mutual

/-- A fault in a tree is an error. -/
theorem hasError_of_faultIn? : ∀ t : Tree, faultIn? t = some n → hasError n = true
  | .token ⟨kind, _, _, _, _⟩, h => by
      cases kind with
      | broken what =>
          obtain rfl := Option.some.inj h
          rfl
      | _ => exact absurd h nofun
  | .group bracket _ inner closing, h => by
      rw [faultIn?.eq_def] at h
      dsimp only at h
      rcases Option.or_eq_some_iff.mp (Option.orElse_eq_or ▸ h) with h | ⟨-, h⟩
      · exact hasError_of_fault? inner h
      · cases closing with
        | present t => exact absurd h nofun
        | absent place =>
            obtain rfl := Option.some.inj h
            rfl

/-- A fault in a list of trees is an error. -/
theorem hasError_of_fault? : ∀ ts : List Tree, fault? ts = some n → hasError n = true
  | [], h => absurd h nofun
  | t :: ts, h => by
      rw [fault?] at h
      rcases Option.or_eq_some_iff.mp (Option.orElse_eq_or ▸ h) with h | ⟨-, h⟩
      · exact hasError_of_faultIn? t h
      · exact hasError_of_fault? ts h

end

/-- A run that is no declaration becomes an error. -/
theorem hasError_ofFaultyRun (isDeclaration : List Tree → Bool) (run : List Tree) :
    hasError (ofFaultyRun isDeclaration run) = true := by
  unfold ofFaultyRun
  split
  · rfl
  · dsimp only
    split <;> rfl

/-- **The node of a run**, if it is faultless, is the declaration that the run is. -/
theorem declaration?_of_ofRun {read : Scope → List Tree → List Node}
    (hn : hasError (ofRun read scope run) = false) :
    declaration? read scope run = some (ofRun read scope run) := by
  revert hn
  unfold ofRun
  split
  · exact nofun
  · split
    · next h => exact fun hn => absurd (hasError_of_fault? _ h) (by rw [hn]; exact nofun)
    · split
      · next h => exact fun _ => h
      · exact fun hn => absurd (hasError_ofFaultyRun _ _) (by rw [hn]; exact nofun)

/-! ### Lists of runs -/

/-- The runs of a list make up the list. -/
theorem flatten_cut (scope : Scope) (skip : Nat) (ts : List Tree) :
    (Run.cut scope skip ts).flatten = ts.drop skip := by
  induction ts generalizing skip with
  | nil => cases skip <;> rfl
  | cons t ts ih =>
      cases skip with
      | succ skip => simp [Run.cut, ih]
      | zero => simp [Run.cut, ih]

/-- No run is empty. -/
theorem ne_nil_of_mem_cut {skip : Nat} {ts : List Tree} (h : run ∈ Run.cut scope skip ts) :
    run ≠ [] := by
  induction ts generalizing skip with
  | nil => cases skip <;> exact absurd h List.not_mem_nil
  | cons t ts ih =>
      cases skip with
      | succ skip => exact ih h
      | zero =>
          rcases List.mem_cons.mp h with rfl | h
          · exact List.cons_ne_nil _ _
          · exact ih h

/-- The nodes of runs are located, where none is laid to the charge of another. -/
theorem located_ofRuns {node : List Tree → Node} {runs : List (List Tree)} (block : Option Token)
    (hnode : ∀ run ∈ runs, hasError (node run) = false → Located (Tree.tokensAll run) [node run])
    (h : anyHasError (ofRuns node block runs) = false) :
    Located (Tree.tokensAll runs.flatten) (ofRuns node block runs) := by
  induction runs generalizing block with
  | nil => exact .nil _
  | cons run runs ih =>
      simp only [ofRuns, anyHasError, Bool.or_eq_false_iff] at h ⊢
      have htail := ih (closingBrace? (node run) run)
        (fun r hr => hnode r (List.mem_cons_of_mem _ hr)) h.2
      rw [List.flatten_cons, Tree.tokensAll_append]
      -- only the node of the run itself can be faultless
      revert h
      split
      · split
        · exact fun h => absurd h.1.symm Bool.false_ne_true
        · exact fun h => (hnode _ List.mem_cons_self h.1).append htail
      · exact fun h => (hnode _ List.mem_cons_self h.1).append htail

/-- **Nodes at every depth** are located. -/
theorem locatesIn_ofTreesWithin (depth : Nat) (scope : Scope) :
    LocatesIn (ofTreesWithin depth scope) := by
  induction depth generalizing scope with
  | zero => exact fun _ _ => .nil _
  | succ depth ih =>
      intro ts h
      have := located_ofRuns none (fun run hrun hn =>
        located_declaration? ih (ne_nil_of_mem_cut hrun) (declaration?_of_ofRun hn) hn) h
      rwa [flatten_cut, List.drop_zero] at this

/-- **The nodes of a faultless file are located** in its tokens. -/
theorem located_ofTrees {ts : List Tree} (h : anyHasError (ofTrees ts) = false) :
    Located (Tree.tokensAll ts) (ofTrees ts) := by
  revert h
  unfold ofTrees
  dsimp only
  split
  · next t rest =>
    split
    · intro h
      rw [anyHasError, Bool.or_eq_false_iff] at h
      have hfirst : Located (Tree.tokensAll [.token t]) [.other (spanOf [.token t]) .shebang []] :=
        located_leaf ⟨List.cons_ne_nil _ _, rfl, trivial⟩ rfl
      exact hfirst.append (locatesIn_ofTreesWithin _ _ rest h.2)
    · exact locatesIn_ofTreesWithin _ _ _
  · exact locatesIn_ofTreesWithin _ _ _

end InteropStubs.Node
