import InteropStubs.Proofs.Node.Place
import InteropStubs.Proofs.Node.Relabel
import InteropStubs.Proofs.Node.Render
import Mathlib.Data.List.Find

/-!
# Nodes without places

What is generated for a file does not depend on where its nodes stand. `Node.bare` leaves out all places
and, but for using directives, all texts of nodes.

* `Node.render_bare`, `Node.violations_bare_iff`: what is generated, and whether something is wrong.
* `Node.bareIn_ofRun`: the node of a relabelled run is the node of the run, but for its places.
-/

namespace InteropStubs

/-- Whether a token stands for text that is no token. -/
def Token.isBroken (t : Token) : Bool :=
  match t.kind with
  | .broken _ => true
  | _ => false

namespace Node

mutual

/-- A node without its place. The text of a using directive is kept, since it is copied. -/
def bareIn : Node → Node
  | namespaceBlock _ name ms => namespaceBlock ⟨0, ""⟩ name (bare ms)
  | usingDirective span => usingDirective ⟨0, span.text⟩
  | interface _ header ms => interface ⟨0, ""⟩ header (bare ms)
  | method _ m => method ⟨0, ""⟩ m
  | property _ p => property ⟨0, ""⟩ p
  | other _ kind ms => other ⟨0, ""⟩ kind (bare ms)
  | error _ what => error ⟨0, ""⟩ what
  | missing _ token => missing 0 token

/-- Nodes without their places. -/
def bare : List Node → List Node
  | [] => []
  | n :: ns => bareIn n :: bare ns

end

/-- Nodes are bared one by one. -/
@[simp] theorem bare_eq_map (ns : List Node) : bare ns = ns.map bareIn := by
  induction ns with
  | nil => rfl
  | cons n ns ih => rw [bare, ih, List.map_cons]

/-! ### What is generated -/

variable (config : Config)

/-- The layout of a member does not depend on where it was read. -/
theorem memberLayout_bareIn (isStatic : Bool) (n : Node) :
    memberLayout config isStatic n.bareIn = memberLayout config isStatic n := by
  cases n <;> simp [bareIn, memberLayout]

theorem membersLayout_bare (isStatic : Bool) (ms : List Node) :
    membersLayout config isStatic (bare ms) = membersLayout config isStatic ms := by
  simp [membersLayout, List.flatMap_map, memberLayout_bareIn]

mutual

/-- Nor does the rendering of a node. -/
theorem renderNode_bareIn : ∀ n : Node, renderNode config n.bareIn = renderNode config n
  | namespaceBlock _ name ms => by rw [bareIn, renderNode, renderNode, render_bare ms]
  | interface _ header ms => by simp only [bareIn, renderNode, membersLayout_bare]
  | usingDirective _ | method .. | property .. | other .. | error .. | missing .. => by
      simp [bareIn, renderNode]

/-- **Places make no difference** to what is generated. -/
theorem render_bare : ∀ ns : List Node, render config (bare ns) = render config ns
  | [] => rfl
  | n :: ns => by rw [bare, render, render, renderNode_bareIn n, render_bare ns]

end

/-- Among members there is no violation just where there is none among the bare ones. -/
theorem memberViolations_bare_iff (ms : List Node) :
    memberViolations (bare ms) = [] ↔ memberViolations ms = [] := by
  have hown (n : Node) : n.bareIn.own n.bareIn.memberBreach? = [] ↔ n.own n.memberBreach? = [] := by
    cases n <;> simp [bareIn, own, memberBreach?]
  simp [memberViolations, List.flatMap_map, hown]

mutual

/-- At or below a node there is no violation just where there is none at or below the bare one. -/
theorem violationsIn_bareIn_iff : ∀ n : Node,
    violationsIn config n.bareIn = [] ↔ violationsIn config n = []
  | namespaceBlock _ name ms => by rw [bareIn, violationsIn, violationsIn, violations_bare_iff ms]
  | interface _ header ms => by
      rw [bareIn, violationsIn, violationsIn, List.append_eq_nil_iff, List.append_eq_nil_iff,
        memberViolations_bare_iff]
      simp [own, breach?]
  | usingDirective _ | method .. | property .. | other .. | error .. | missing .. => by
      simp [bareIn, violationsIn, own, breach?]

/-- Nor do they make a difference to whether something is wrong. -/
theorem violations_bare_iff : ∀ ns : List Node,
    violations config (bare ns) = [] ↔ violations config ns = []
  | [] => Iff.rfl
  | n :: ns => by
      rw [bare, violations, violations, List.append_eq_nil_iff, List.append_eq_nil_iff,
        violationsIn_bareIn_iff n, violations_bare_iff ns]

end

/-! ### Nodes that go into stubs -/

/-- Whether a node is of a kind that goes into stubs. -/
def isStubbed : Node → Bool
  | namespaceBlock .. | usingDirective _ | interface .. | method .. | property .. => true
  | other .. | error .. | missing .. => false

variable {config}

/-- Members without violations are stubbed. -/
theorem isStubbed_of_memberViolations {ms : List Node} (h : memberViolations ms = []) :
    ∀ n ∈ all ms, n.isStubbed = true := by
  intro n hn
  rw [all_eq_flatMap] at hn
  obtain ⟨m, hm, hn⟩ := List.mem_flatMap.mp hn
  rcases method_or_property_of_mem h hm with ⟨_, _, rfl⟩ | ⟨_, _, rfl⟩ <;>
    exact List.mem_singleton.mp hn ▸ rfl

mutual

/-- A node without violations is stubbed, and so is all below it. -/
theorem isStubbed_of_violationsIn : ∀ n : Node, violationsIn config n = [] →
    ∀ k ∈ allIn n, k.isStubbed = true
  | namespaceBlock _ _ ms, h => List.forall_mem_cons.mpr ⟨rfl, isStubbed_of_violations ms h⟩
  | usingDirective _, _ => fun _ hk => List.mem_singleton.mp hk ▸ rfl
  | interface _ header ms, h =>
      have ⟨_, _, hms⟩ := exists_binding_of_violationsIn h
      List.forall_mem_cons.mpr ⟨rfl, isStubbed_of_memberViolations hms⟩
  | method .., h | property .., h | other .., h | error .., h | missing .., h => by
      simp [violationsIn, own, breach?] at h

/-- **Where nothing is wrong, all nodes go into stubs.** -/
theorem isStubbed_of_violations : ∀ ns : List Node, violations config ns = [] →
    ∀ n ∈ all ns, n.isStubbed = true
  | [], _ => nofun
  | n :: ns, h => by
      obtain ⟨hn, hns⟩ := List.append_eq_nil_iff.mp h
      intro k hk
      exact (List.mem_append.mp hk).elim (isStubbed_of_violationsIn n hn k)
        (isStubbed_of_violations ns hns k)

end

mutual

/-- A node that is stubbed with all below it is faultless. -/
theorem hasError_of_isStubbed : ∀ n : Node, (∀ k ∈ allIn n, k.isStubbed = true) → hasError n = false
  | namespaceBlock _ _ ms, h | interface _ _ ms, h =>
      anyHasError_of_isStubbed ms fun k hk => h k (List.mem_cons_of_mem _ hk)
  | usingDirective _, _ | method .., _ | property .., _ => rfl
  | other .., h | error .., h | missing .., h => absurd (h _ List.mem_cons_self) Bool.false_ne_true

/-- Stubbed nodes are faultless. -/
theorem anyHasError_of_isStubbed : ∀ ns : List Node, (∀ k ∈ all ns, k.isStubbed = true) →
    anyHasError ns = false
  | [], _ => rfl
  | n :: ns, h => by
      rw [anyHasError, hasError_of_isStubbed n fun k hk => h k (List.mem_append_left _ hk),
        anyHasError_of_isStubbed ns fun k hk => h k (List.mem_append_right _ hk)]
      rfl

end

/-! ### Runs without faults -/

variable {φ : Relabelling} {run : List Tree} {scope : Scope} {n : Node}

/-- The fault of a token is that it is broken. -/
theorem isSome_faultIn?_token (t : Token) : (faultIn? (.token t)).isSome = t.isBroken := by
  obtain ⟨kind, _, _, _, _⟩ := t
  cases kind <;> rfl

mutual

/-- A fault of a tree does not depend on where the tokens are. -/
theorem isSome_faultIn?_relabel : ∀ t : Tree, (faultIn? (t.relabel φ)).isSome = (faultIn? t).isSome
  | .token t => by
      rw [Tree.relabel_token, isSome_faultIn?_token, isSome_faultIn?_token, Token.isBroken, φ.kind,
        Token.isBroken]
  | .group b opening inner (.present closing) => by
      simp [faultIn?, Closing.relabel, isSome_fault?_relabel inner]
  | .group b opening inner (.absent place) => by
      simp [faultIn?, Closing.relabel]

/-- Nor does one of a list of trees. -/
theorem isSome_fault?_relabel : ∀ ts : List Tree,
    (fault? (ts.map (Tree.relabel φ))).isSome = (fault? ts).isSome
  | [] => rfl
  | t :: ts => by
      simp [fault?, isSome_faultIn?_relabel t, isSome_fault?_relabel ts]

end

/-- A relabelled run has no fault if the run has none. -/
theorem fault?_relabel (h : fault? run = none) : fault? (run.map (Tree.relabel φ)) = none := by
  have hsome : (fault? (run.map (Tree.relabel φ))).isSome = (fault? run).isSome :=
    isSome_fault?_relabel run
  rw [h] at hsome
  exact Option.isSome_eq_false_iff.mp hsome |> Option.isNone_iff_eq_none.mp

mutual

/-- A tree without fault is closed. -/
theorem isClosed_of_faultIn? : ∀ t : Tree, faultIn? t = none → t.isClosed = true
  | .token _, _ => rfl
  | .group b opening inner (.present closing), h => by
      rw [faultIn?, Option.orElse_eq_or, Option.or_eq_none_iff] at h
      exact areClosed_of_fault? inner h.1
  | .group b opening inner (.absent place), h => by
      rw [faultIn?, Option.orElse_eq_or, Option.or_eq_none_iff] at h
      exact absurd h.2 nofun

/-- Trees without fault are closed. -/
theorem areClosed_of_fault? : ∀ ts : List Tree, fault? ts = none → Tree.areClosed ts = true
  | [], _ => rfl
  | t :: ts, h => by
      rw [fault?, Option.orElse_eq_or, Option.or_eq_none_iff] at h
      rw [Tree.areClosed, isClosed_of_faultIn? t h.1, areClosed_of_fault? ts h.2]
      rfl

end

mutual

/-- In a closed tree no brace is left open. -/
theorem opensBrace_of_isClosed : ∀ t : Tree, t.isClosed = true → opensBrace t = false
  | .token _, _ => rfl
  | .group b opening inner (.present closing), h => by
      cases b <;> exact anyOpensBrace_of_areClosed inner h
  | .group b opening inner (.absent place), h => absurd h Bool.false_ne_true

/-- In closed trees no brace is left open. -/
theorem anyOpensBrace_of_areClosed : ∀ ts : List Tree, Tree.areClosed ts = true → anyOpensBrace ts = false
  | [], _ => rfl
  | t :: ts, h => by
      obtain ⟨ht, hts⟩ := Bool.and_eq_true_iff.mp h
      rw [anyOpensBrace, opensBrace_of_isClosed t ht, anyOpensBrace_of_areClosed ts hts]
      rfl

end

/-- A run whose node is faultless has no fault. -/
theorem fault?_of_ofRun {read : Scope → List Tree → List Node} (h : hasError (ofRun read scope run) = false) :
    fault? run = none := by
  revert h
  unfold ofRun
  split
  · exact nofun
  · split
    · next hfault => exact fun h => absurd (hasError_of_fault? _ hfault) (by rw [h]; exact nofun)
    · next hfault => exact fun _ => hfault

/-- A run without faults that is a declaration becomes the node of the declaration. -/
theorem ofRun_of_declaration? {read : Scope → List Tree → List Node} (hfault : fault? run = none)
    (h : declaration? read scope run = some n) : ofRun read scope run = n := by
  rw [ofRun, anyOpensBrace_of_areClosed run (areClosed_of_fault? run hfault), hfault, h]
  rfl

/-! ### Declarations -/

/-- A kind is found alike. -/
theorem kindOf?_relabel {kinds : List (Kind × Phrase)} (h : ∀ k ∈ kinds, k.2.isDiscreet = true) :
    kindOf? kinds (run.map (Tree.relabel φ)) = kindOf? kinds run := by
  have hfind := List.find?_congr fun k hk => Phrase.fits_relabel φ (h k hk) run
  exact congrArg (Option.map Prod.fst) hfind

/-- A run that is no conditional is looked at as a declaration of its scope. -/
theorem declaration?_eq {read : Scope → List Tree → List Node}
    (hrun : ∀ opening inner closing, run ≠ [.group .conditional opening inner closing]) :
    declaration? read scope run = (usingDirective? scope run).orElse fun _ =>
      match scope with
      | .body => (sharedDeclaration? (read .body) run).orElse fun _ => member? run
      | .file =>
        (if (Rule.fileItemWith (.anyGroup .curly)).fits run then sharedDeclaration? (read .body) run
          else none).orElse fun _ =>
          (kindOf? fileKinds run).map fun kind => .other (spanOf run) kind [] := by
  unfold declaration?
  split
  · next opening inner closing => exact absurd rfl (hrun opening inner closing)
  · rfl

/-- The words that are keywords behind `using`. -/
def usingKeywords : Scope → List String
  | .file => Rule.usingWords
  | .body => []

/-- A using directive is its phrase, with the keywords of its place. -/
theorem usingDirective?_eq (scope : Scope) (run : List Tree) :
    usingDirective? scope run =
      if (Rule.usingDirectiveBut (usingKeywords scope)).fits run then some (.usingDirective (spanOf run))
      else none := by
  cases scope <;> rfl

/-- A using directive is written as before. -/
theorem verbatim_relabel_of_fits (hrun : Tree.Steady φ run)
    (h : (Rule.usingDirectiveBut (usingKeywords scope)).fits run = true) :
    Tree.verbatim (run.map (Tree.relabel φ)) = Tree.verbatim run := by
  have hmem := List.contains_iff_mem.mp h
  have havoids : (Rule.usingDirectiveBut (usingKeywords scope)).avoids Phrase.typeRules
      (.group .curly) = true := by
    clear h hmem
    cases scope <;> decide
  have hnone := Phrase.not_of_mem_take hmem (Phrase.typeRules_avoidedBy (by decide)) havoids
  simpa using hrun.verbatim hnone

/-- A using directive is found alike. -/
theorem usingDirective?_relabel (hrun : Tree.Steady φ run) :
    (usingDirective? scope (run.map (Tree.relabel φ))).map bareIn = (usingDirective? scope run).map bareIn := by
  have hdiscreet : (Rule.usingDirectiveBut (usingKeywords scope)).isDiscreet = true := by
    cases scope <;> decide
  rw [usingDirective?_eq, usingDirective?_eq, Phrase.fits_relabel φ hdiscreet]
  split
  · next h => simp [bareIn, spanOf, verbatim_relabel_of_fits hrun h]
  · rfl

variable {read read' : List Tree → List Node}

/-- What is read of the body of a node is the same, but for its places. -/
def ReadsAlike (φ : Relabelling) (run : List Tree) (n : Node) (read read' : List Tree → List Node) : Prop :=
  ∀ inner, Reader.Braced inner run → n.members = read inner →
    bare (read' (inner.map (Tree.relabel φ))) = bare (read inner)

/-- The node of a kind is not stubbed. -/
theorem isStubbed_ofKind (run : List Tree) (kind : Kind) : isStubbed (ofKind read run kind) = false := by
  cases kind <;> rfl

/-- Where there is no namespace and no type, there is none in the relabelled run. -/
theorem sharedDeclaration?_relabel_none (hrun : Tree.Steady φ run) (h : sharedDeclaration? read run = none) :
    sharedDeclaration? read' (run.map (Tree.relabel φ)) = none := by
  have hkinds : kindOf? typeKinds (run.map (Tree.relabel φ)) = kindOf? typeKinds run :=
    kindOf?_relabel (by decide)
  unfold sharedDeclaration? at h ⊢
  rw [(Reader.relabels_namespaceBlock hrun).whole?, (Reader.relabels_interface hrun).whole?, hkinds]
  split at h
  · exact absurd h nofun
  · next hnamespace =>
    split at h
    · exact absurd h nofun
    · next hinterface =>
      simpa [Option.eq_none_iff_forall_not_mem.mpr fun a ha => hnamespace _ _ ha,
        Option.eq_none_iff_forall_not_mem.mpr fun a ha => hinterface _ _ ha] using h

/-- A stubbed namespace or interface is found alike, if its body is read alike. -/
theorem sharedDeclaration?_relabel (hrun : Tree.Steady φ run) (hn : n.isStubbed = true)
    (h : sharedDeclaration? read run = some n) (hread : ReadsAlike φ run n read read') :
    ∃ n', sharedDeclaration? read' (run.map (Tree.relabel φ)) = some n' ∧ n'.bareIn = n.bareIn := by
  unfold sharedDeclaration? at h ⊢
  rw [(Reader.relabels_namespaceBlock hrun).whole?, (Reader.relabels_interface hrun).whole?]
  split at h
  · next name inner hr =>
    obtain rfl := Option.some.inj h
    have hbraced := Reader.braced_of_mem_namespaceBlock (Reader.mem_of_whole? hr)
    have hmembers := hread inner hbraced rfl
    exact ⟨_, by rw [hr]; rfl, by simpa [bareIn] using hmembers⟩
  · next hnamespace =>
    split at h
    · next header inner hr =>
      obtain rfl := Option.some.inj h
      have hbraced := Reader.braced_of_mem_interface (Reader.mem_of_whole? hr)
      have hmembers := hread inner hbraced rfl
      have hnone : Reader.whole? Reader.namespaceBlock run = none :=
        Option.eq_none_iff_forall_not_mem.mpr fun a ha => hnamespace _ _ ha
      exact ⟨_, by rw [hnone, hr]; rfl, by simpa [bareIn] using hmembers⟩
    · obtain ⟨kind, -, rfl⟩ := Option.map_eq_some_iff.mp h
      exact absurd hn (by rw [isStubbed_ofKind]; exact nofun)

/-- A stubbed member is found alike. -/
theorem member?_relabel (hrun : Tree.Steady φ run) (hn : n.isStubbed = true) (h : member? run = some n) :
    ∃ n', member? (run.map (Tree.relabel φ)) = some n' ∧ n'.bareIn = n.bareIn := by
  unfold member? at h ⊢
  rw [(Reader.relabels_method hrun).whole?, (Reader.relabels_property hrun).whole?]
  split at h
  · next m hm =>
    obtain rfl := Option.some.inj h
    exact ⟨.method (spanOf (run.map (Tree.relabel φ))) m, by rw [hm]; rfl, rfl⟩
  · next hmethod =>
    split at h
    · next p hp =>
      obtain rfl := Option.some.inj h
      have hnone : Reader.whole? Reader.method run = none :=
        Option.eq_none_iff_forall_not_mem.mpr fun a ha => hmethod _ ha
      exact ⟨.property (spanOf (run.map (Tree.relabel φ))) p, by rw [hnone, hp]; rfl, rfl⟩
    · obtain ⟨kind, -, rfl⟩ := Option.map_eq_some_iff.mp h
      exact absurd hn Bool.false_ne_true

/-- **A declaration that goes into stubs** is the same once its run is relabelled, but for its places. -/
theorem declaration?_relabel {read read' : Scope → List Tree → List Node} (hrun : Tree.Steady φ run)
    (hn : n.isStubbed = true) (h : declaration? read scope run = some n)
    (hread : ReadsAlike φ run n (read .body) (read' .body)) :
    ∃ n', declaration? read' scope (run.map (Tree.relabel φ)) = some n' ∧ n'.bareIn = n.bareIn := by
  have hplain : ∀ opening inner closing, run ≠ [.group .conditional opening inner closing] := by
    rintro opening inner closing rfl
    simp only [declaration?, Option.ite_none_right_eq_some, Option.some.injEq] at h
    rw [← h.2] at hn
    exact absurd hn Bool.false_ne_true
  have hplain' : ∀ opening inner closing,
      run.map (Tree.relabel φ) ≠ [.group .conditional opening inner closing] := by
    intro opening inner closing heq
    rcases run with _ | ⟨_ | ⟨b, _, _, _⟩, _ | _⟩ <;> simp_all
  have husing : (usingDirective? scope (run.map (Tree.relabel φ))).map bareIn =
      (usingDirective? scope run).map bareIn := usingDirective?_relabel hrun
  rw [declaration?_eq hplain, Option.orElse_eq_or] at h
  rw [declaration?_eq hplain', Option.orElse_eq_or]
  rcases Option.or_eq_some_iff.mp h with h | ⟨hnone, h⟩
  · rw [h, Option.map_some, Option.map_eq_some_iff] at husing
    obtain ⟨n', hn', hbare⟩ := husing
    exact ⟨n', by rw [hn']; rfl, hbare⟩
  · rw [hnone, Option.map_none, Option.map_eq_none_iff] at husing
    rw [husing, Option.none_or]
    cases scope with
    | body =>
        simp only [Option.orElse_eq_or] at h ⊢
        rcases Option.or_eq_some_iff.mp h with h | ⟨hnone, h⟩
        · obtain ⟨n', hn', hbare⟩ := sharedDeclaration?_relabel hrun hn h hread
          exact ⟨n', by rw [hn']; rfl, hbare⟩
        · rw [sharedDeclaration?_relabel_none hrun hnone, Option.none_or]
          exact member?_relabel hrun hn h
    | file =>
        simp only [Option.orElse_eq_or] at h ⊢
        rw [Phrase.fits_relabel φ (by decide)]
        rcases Option.or_eq_some_iff.mp h with h | ⟨-, h⟩
        · obtain ⟨hfits, h⟩ := Option.ite_none_right_eq_some.mp h
          obtain ⟨n', hn', hbare⟩ := sharedDeclaration?_relabel hrun hn h hread
          exact ⟨n', by rw [if_pos hfits, hn']; rfl, hbare⟩
        · obtain ⟨kind, -, rfl⟩ := Option.map_eq_some_iff.mp h
          exact absurd hn Bool.false_ne_true

/-- **The node of a relabelled run** is the node of the run, but for its places. -/
theorem bareIn_ofRun {read read' : Scope → List Tree → List Node} (hrun : Tree.Steady φ run)
    (hn : ∀ k ∈ allIn (ofRun read scope run), k.isStubbed = true)
    (hread : ReadsAlike φ run (ofRun read scope run) (read .body) (read' .body)) :
    (ofRun read' scope (run.map (Tree.relabel φ))).bareIn = (ofRun read scope run).bareIn := by
  have herror := hasError_of_isStubbed _ hn
  have hstubbed := hn _ (allIn_eq _ ▸ List.mem_cons_self)
  obtain ⟨n', hn', hbare⟩ := declaration?_relabel hrun hstubbed (declaration?_of_ofRun herror) hread
  rw [ofRun_of_declaration? (fault?_relabel (fault?_of_ofRun herror)) hn', hbare]

end Node

end InteropStubs
