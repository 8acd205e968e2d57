import InteropStubs.Proofs.Node.Parts

/-!
# Decorated declarations

A declaration may be decorated in many ways: by attributes and modifiers in front of it, by type parameters and what is
demanded of them, and a method also by the interface that it implements and by a body. `Node.Decorated` relates the runs
of a list to the same runs decorated otherwise.

* `Node.DecoratedSingle.declaration?`: a directive, method or property becomes the same node, but for its place.
* `Node.DecoratedBlock.declaration?`: so does a namespace or an interface, if this holds of its body.
-/

namespace InteropStubs

open Phrase Rule

/-! ### Trees that are moved, and trees that are added -/

namespace Tree

/-- Some trees as they stand elsewhere: only the gap in front of them may differ. -/
def Moved (ts ts' : List Tree) : Prop :=
  ∃ φ : Relabelling, φ.Fixes (tokensAll ts).tail ∧ ts' = ts.map (relabel φ)

/-- Whether attributes begin with a target: a word with a colon behind it. -/
def isTargeted : List Tree → Bool
  | .token _ :: .token t :: _ => t.isText ":"
  | _ => false

/-- Some trees to which attribute lists without a target, and words are added. -/
inductive Adds : List Tree → List Tree → Prop
  | nil : Adds [] []
  | keep {t t' : Tree} {ts ts' : List Tree} (ht : Moved [t] [t']) (h : Adds ts ts') : Adds (t :: ts) (t' :: ts')
  | attributes {opening closing : Token} {inner ts ts' : List Tree} (hinner : isTargeted inner = false)
      (h : Adds ts ts') : Adds ts (.group .square opening inner (.present closing) :: ts')
  | word {t : Token} {ts ts' : List Tree} (ht : t.kind = .word) (h : Adds ts ts') : Adds ts (.token t :: ts')

variable {ts ts' : List Tree}

/-- A token may be moved anywhere, unless it matters whether it touches what is in front of it. -/
theorem Moved.token {t t' : Token} (hkind : t'.kind = t.kind) (htext : t'.text = t.text)
    (hplain : t.text ∉ Token.touchy) : Moved [.token t] [.token t'] := by
  refine ⟨⟨fun u => if u = t then t' else u, fun u => ?_, fun u => ?_, fun u m hm hu => ?_⟩, nofun, ?_⟩
  · split <;> simp_all
  · split <;> simp_all
  · have hne : u ≠ t := by
      rintro rfl
      simp only [Token.isText, Bool.and_eq_true, beq_iff_eq] at hu
      exact hplain (hu.2 ▸ hm)
    rw [if_neg hne]
  · simp

/-- Moved trees are written as before. -/
theorem Moved.verbatim_eq (h : Moved ts ts') : verbatim ts' = verbatim ts := by
  obtain ⟨φ, hfixes, rfl⟩ := h
  rw [verbatim, tokensAll_relabel, Token.verbatim_map hfixes, verbatim]

/-- Moved parameters are read as before. -/
theorem Moved.parameters?_eq {opening opening' closing closing' : Token} {inner inner' : List Tree}
    (h : Moved [.group .round opening inner (.present closing)] [.group .round opening' inner' (.present closing')]) :
    Reader.parameters? inner' closing' = Reader.parameters? inner closing := by
  obtain ⟨φ, hfixes, heq⟩ := h
  rw [List.map_singleton, relabel_group, Closing.relabel] at heq
  obtain ⟨-, -, rfl, hclosing⟩ := Tree.group.inj (List.cons.inj heq).1
  obtain rfl := Closing.present.inj hclosing
  refine Reader.parameters?_relabel fun u hu => hfixes u ?_
  simpa [tokens, Closing.tokens] using hu

end Tree

namespace Node

open InteropStubs.Tree (Moved Adds)

/-! ### Runs that are decorated otherwise -/

/-- A declaration of which no body is read, and the same declaration decorated otherwise. -/
inductive DecoratedSingle : Scope → List Tree → List Tree → Prop
  | usingDirective {scope : Scope} {run run' : List Tree} (h : (usingDirectiveBut (usingKeywords scope)).fits run = true)
      (hmoved : Moved run run') : DecoratedSingle scope run run'
  | method {m m' : MethodParts} (hfront : Adds m.front m'.front) (htype : Moved m.type m'.type)
      (hname : m'.name.text = m.name.text) (hlist : Moved [m.list] [m'.list]) : DecoratedSingle .body m.trees m'.trees
  | property {p p' : PropertyParts} (hfront : Adds p.front p'.front) (htype : Moved p.type p'.type)
      (hname : p'.name.text = p.name.text) (hrest : Moved p.rest p'.rest) : DecoratedSingle .body p.trees p'.trees

/-- A namespace or interface, and the same declaration decorated otherwise, whatever its body is. -/
inductive DecoratedBlock : List Tree → List Tree → Prop
  | namespaceBlock {s s' : NamespaceParts} (hname : Moved s.name s'.name) : DecoratedBlock s.trees s'.trees
  | interface {i i' : InterfaceParts} (hfront : Adds i.front i'.front) (hname : i'.name.text = i.name.text)
      (hbase : Moved i.base i'.base) : DecoratedBlock i.trees i'.trees

/-- The runs of a list, and the same runs decorated otherwise. -/
inductive Decorated : Scope → List (List Tree) → List (List Tree) → Prop
  | nil {scope : Scope} : Decorated scope [] []
  | single {scope : Scope} {run run' : List Tree} {runs runs' : List (List Tree)} (h : DecoratedSingle scope run run')
      (hmore : Decorated scope runs runs') : Decorated scope (run :: runs) (run' :: runs')
  | block {scope : Scope} {run run' : List Tree} {runs runs' members' : List (List Tree)}
      (h : DecoratedBlock run run') (hbody : Decorated .body (Tree.runs .body (bodyOf run)) members')
      (hmembers : bodyOf run' = members'.flatten) (hmore : Decorated scope runs runs') :
      Decorated scope (run :: runs) (run' :: runs')

variable {scope : Scope} {run run' : List Tree} {n : Node} {read read' : Scope → List Tree → List Node}

theorem token_mem_of_usingDirective {words : List String} (h : (usingDirectiveBut words).fits run = true) :
    ∃ t, .token t ∈ run := by
  obtain ⟨mid, hmid, hend⟩ := leaves_andThen.mp (leaves_of_fits (Nat.le_refl _) h)
  obtain ⟨t, rfl, -⟩ := leaves_one.mp hend
  exact ⟨t, hmid.suffix.subset (List.mem_singleton_self _)⟩

/-- A directive is nothing else. -/
theorem declaration?_of_usingDirective (h : (usingDirectiveBut (usingKeywords scope)).fits run = true) :
    declaration? read scope run = some (.usingDirective (spanOf run)) := by
  obtain ⟨t, ht⟩ := token_mem_of_usingDirective h
  rw [declaration?_eq (not_conditional_of_token ht), usingDirective?_eq, if_pos h]
  rfl

/-- A directive that is moved is a directive. -/
theorem fits_of_moved (hmoved : Moved run run') (h : (usingDirectiveBut (usingKeywords scope)).fits run = true) :
    (usingDirectiveBut (usingKeywords scope)).fits run' = true := by
  obtain ⟨φ, -, rfl⟩ := hmoved
  have hdiscreet : (usingDirectiveBut (usingKeywords scope)).isDiscreet = true := by
    clear h
    cases scope <;> decide
  rwa [fits_relabel φ hdiscreet]

/-- What goes into stubs is no other member. -/
theorem exists_of_or_other {α : Type} {o : Option α} {f : α → Node} {kind? : Option Kind}
    (h : (o.map f).or (kind?.map fun kind => .other (spanOf run) kind []) = some n) (hn : n.isStubbed = true) :
    ∃ a, o = some a ∧ n = f a := by
  rcases Option.or_eq_some_iff.mp h with h | ⟨-, h⟩
  · obtain ⟨a, ha, rfl⟩ := Option.map_eq_some_iff.mp h
    exact ⟨a, ha, rfl⟩
  · obtain ⟨kind, -, rfl⟩ := Option.map_eq_some_iff.mp h
    exact absurd hn Bool.false_ne_true

/-- **A directive, method or property** that is decorated otherwise becomes the same node, but for its place. -/
theorem DecoratedSingle.declaration? (h : DecoratedSingle scope run run') (hrun : Tree.Spelled run)
    (hrun' : Tree.Spelled run') (hd : declaration? read scope run = some n) (hn : n.isStubbed = true) :
    ∃ n', Node.declaration? read' scope run' = some n' ∧ n'.bareIn = n.bareIn := by
  cases h with
  | usingDirective h hmoved =>
      rw [declaration?_of_usingDirective h] at hd
      obtain rfl := Option.some.inj hd
      exact ⟨_, declaration?_of_usingDirective (fits_of_moved hmoved h), by simp only [bareIn, spanOf, hmoved.verbatim_eq]⟩
  | @method m m' hfront htype hname hlist =>
      rw [MethodParts.declaration?_eq hrun] at hd
      obtain ⟨ps, hps, rfl⟩ := exists_of_or_other hd hn
      refine ⟨.method (spanOf m'.trees) (m'.signature ps), ?_, ?_⟩
      · rw [MethodParts.declaration?_eq hrun', hlist.parameters?_eq, hps]
        rfl
      · simp only [bareIn, MethodParts.signature, hname, htype.verbatim_eq, hlist.verbatim_eq]
  | @property p p' hfront htype hname hrest =>
      rw [PropertyParts.declaration?_eq hrun] at hd
      obtain ⟨signature, hsignature, rfl⟩ := exists_of_or_other hd hn
      refine ⟨.property (spanOf p'.trees) signature, ?_, rfl⟩
      obtain ⟨φ, -, hmap⟩ := hrest
      have hrelabels : Reader.Relabels φ id _ _ _ :=
        Reader.relabels_propertyRest (Tree.verbatim p.type, p.name.text) p.rest
      rw [PropertyParts.declaration?_eq hrun', hmap, htype.verbatim_eq, hname, hrelabels.whole?, hsignature]
      rfl

/-! ### Namespaces and interfaces -/

/-- Whether a node has no more than one base. -/
def HasOneBase : Node → Prop
  | interface _ header _ => ∀ first second, header.bases ≠ some [first, second]
  | _ => True

mutual

theorem hasOneBase_of_violationsIn {config : Config} : ∀ n : Node, violationsIn config n = [] →
    ∀ k ∈ allIn n, k.HasOneBase
  | namespaceBlock _ _ ms, h => List.forall_mem_cons.mpr ⟨trivial, hasOneBase_of_violations ms h⟩
  | interface _ header ms, h => by
      obtain ⟨b, hbinding, hms⟩ := exists_binding_of_violationsIn h
      refine List.forall_mem_cons.mpr ⟨fun first second hbases => ?_, fun k hk => ?_⟩
      · have hbreach := Interface.baseBreach?_eq_none hbinding
        simp [Interface.baseBreach?, hbases] at hbreach
      · rw [all_eq_flatMap] at hk
        obtain ⟨m, hm, hk⟩ := List.mem_flatMap.mp hk
        rcases method_or_property_of_mem hms hm with ⟨_, _, rfl⟩ | ⟨_, _, rfl⟩ <;>
          exact List.mem_singleton.mp hk ▸ trivial
  | usingDirective _, _ | method .., _ | property .., _ | error .., _ | missing .., _ =>
      fun _ hk => List.mem_singleton.mp hk ▸ trivial
  | other .., h => by
      simp [violationsIn, own, breach?] at h

/-- Where nothing is wrong, no interface has several bases. -/
theorem hasOneBase_of_violations {config : Config} : ∀ ns : List Node, violations config ns = [] →
    ∀ n ∈ all ns, n.HasOneBase
  | [], _ => nofun
  | n :: ns, h => by
      obtain ⟨hn, hns⟩ := List.append_eq_nil_iff.mp h
      intro k hk
      exact (List.mem_append.mp hk).elim (hasOneBase_of_violationsIn n hn k) (hasOneBase_of_violations ns hns k)

end

/-- **A namespace or interface** that is decorated otherwise becomes the same node, but for its place, if this holds of
its body. In a file it must be an item of the file as well. -/
theorem DecoratedBlock.declaration? (h : DecoratedBlock run run') (hrun : Tree.Spelled run)
    (hrun' : Tree.Spelled run') (hclosed : Tree.areClosed run = true) (hclosed' : Tree.areClosed run' = true)
    (hd : declaration? read scope run = some n) (hn : n.isStubbed = true) (hbase : n.HasOneBase)
    (hplace : scope = .file → (fileItemWith (anyGroup .curly)).fits run' = true) :
    n.members = read .body (bodyOf run) ∧
      (bare (read' .body (bodyOf run')) = bare (read .body (bodyOf run)) →
        ∃ n', Node.declaration? read' scope run' = some n' ∧ n'.bareIn = n.bareIn) := by
  cases h with
  | @namespaceBlock s s' hname =>
      obtain rfl := eq_of_blockStart (Nat.le_refl _) s.begins (NamespaceParts.sharedDeclaration?_eq hrun hclosed) hd hn
      refine ⟨rfl, fun hbody => ⟨_, declaration?_of_blockStart (Nat.le_refl _) s'.begins
        (NamespaceParts.sharedDeclaration?_eq hrun' hclosed') hplace, ?_⟩⟩
      simp only [bareIn, hbody, hname.verbatim_eq]
  | @interface i i' hfront hname hmoved =>
      -- If the bases could be read in two ways, the node would have two bases.
      have hplain : ¬ i.Arguable := fun harguable => by
        obtain ⟨header, inner, first, second, hshared, hbases⟩ := InterfaceParts.exists_of_arguable hrun harguable
        obtain rfl := eq_of_blockStart (Nat.le_refl _) i.begins hshared hd hn
        exact hbase first second hbases
      have hplain' : ¬ i'.Arguable := fun harguable => by
        obtain ⟨φ, -, hmap⟩ := hmoved
        exact hplain (InterfaceParts.arguable_of_relabel hrun hrun' hmap harguable)
      obtain rfl := eq_of_blockStart (Nat.le_refl _) i.begins
        (InterfaceParts.sharedDeclaration?_eq hrun hclosed hplain) hd hn
      refine ⟨rfl, fun hbody => ⟨_, declaration?_of_blockStart (Nat.le_refl _) i'.begins
        (InterfaceParts.sharedDeclaration?_eq hrun' hclosed' hplain') hplace, ?_⟩⟩
      simp only [bareIn, hbody, hname, hmoved.verbatim_eq]

/-- In front of its body it begins as one. -/
theorem DecoratedBlock.begins (h : DecoratedBlock run run') :
    (∃ rest, Leaves (Tree.ruleDepth run) blockStart run rest) ∧
      ∃ rest', Leaves (Tree.ruleDepth run') blockStart run' rest' := by
  cases h with
  | @namespaceBlock s s' => exact ⟨⟨_, s.begins⟩, _, s'.begins⟩
  | @interface i i' => exact ⟨⟨_, i.begins⟩, _, i'.begins⟩

end Node

end InteropStubs
