import InteropStubs.Proofs.Node.Kinds
import InteropStubs.Proofs.Node.Size

/-!
# Declarations in parts

A declaration is given by its parts, each of which stands at its place in the grammar: `MethodParts`, `PropertyParts`,
`InterfaceParts` and `NamespaceParts`. What is read of it are the parts that are kept, whatever the others are
(`MethodParts.declaration?_eq`, `PropertyParts.declaration?_eq`, `InterfaceParts.sharedDeclaration?_eq`,
`NamespaceParts.sharedDeclaration?_eq`).
-/

namespace InteropStubs

open Phrase Rule

/-- What is in the body of a run that is read. -/
theorem Node.Body.bodyOf_eq {run inner : List Tree} (h : Body run inner) (hclosed : Tree.areClosed run = true) :
    bodyOf run = inner := by
  cases h with
  | @braces front opening closing after hrun hafter =>
      subst hrun
      rcases hafter with rfl | ⟨t, rfl, -⟩
      · simp [bodyOf, Tree.isGroup]
      · simp [bodyOf, Tree.isGroup]
  | @semicolon front t hrun ht hne hfront hinner =>
      subst hrun hinner
      have hnone : (front ++ [Tree.token t]).reverse.find? (Tree.isGroup .curly) = none := by
        rw [List.find?_eq_none]
        intro u hu
        rcases List.mem_append.mp (List.mem_reverse.mp hu) with hu | hu
        · have hu' := Tree.areClosed_iff.mp hclosed u (List.mem_append_left _ hu)
          rw [Tree.isGroup_eq_false hu' (hfront (.group .curly) (by decide) u hu)]
          exact Bool.false_ne_true
        · obtain rfl := List.mem_singleton.mp hu
          exact Bool.false_ne_true
      rw [bodyOf, hnone]

/-! ### Methods -/

/-- The parts of a method. -/
structure MethodParts where
  /-- Attributes and modifiers. -/
  front : List Tree
  type : List Tree
  /-- The interface of which a member is implemented, with a dot behind it. -/
  owner : List Tree
  name : Token
  /-- Type parameters. -/
  generics : List Tree
  opening : Token
  parameters : List Tree
  closing : Token
  /-- What is demanded of the type parameters. -/
  demands : List Tree
  body : List Tree
  divides : Divides
    [memberDecorations, memberType, Rule.owner, memberName, methodTypeParameters, anyGroup .round, constraints, rule .body]
    [front, type, owner, [.token name], generics, [.group .round opening parameters (.present closing)], demands, body]

namespace MethodParts

variable (m : MethodParts)

/-- The parameter list. -/
def list : Tree :=
  .group .round m.opening m.parameters (.present m.closing)

/-- What is behind the name. -/
def behindName : List Tree :=
  m.generics ++ m.list :: (m.demands ++ m.body)

/-- The trees of a method. -/
def trees : List Tree :=
  m.front ++ (m.type ++ (m.owner ++ .token m.name :: m.behindName))

/-- What is read of a method with some parameters. -/
def signature (parameters : List Parameter) : Method :=
  ⟨m.name.text, Tree.verbatim m.type, parameters, Tree.verbatim [m.list]⟩

theorem leaves {fuel : Nat} (hfuel : Tree.ruleDepth m.trees ≤ fuel) :
    MemberHead fuel m.trees (m.type ++ (m.owner ++ .token m.name :: m.behindName)) (m.owner ++ .token m.name :: m.behindName)
      m.name m.behindName ∧
    Leaves fuel methodTypeParameters m.behindName (m.list :: (m.demands ++ m.body)) ∧
    Leaves fuel constraints (m.demands ++ m.body) m.body ∧ Leaves fuel (rule .body) m.body [] := by
  have hflatten : m.trees = [m.front, m.type, m.owner, [.token m.name], m.generics, [m.list], m.demands, m.body].flatten := by
    simp [trees, behindName]
  rw [hflatten] at hfuel
  obtain ⟨hfront, htype, howner, hname, hgenerics, -, hdemands, hbody, -⟩ := m.divides.leaves hfuel
  simp only [List.flatten_cons, List.flatten_nil, List.append_nil, List.singleton_append] at *
  obtain ⟨_, heq, hholds⟩ := leaves_one.mp hname
  obtain rfl := Tree.token.inj (List.cons.inj heq).1
  exact ⟨⟨hflatten ▸ hfront, htype, howner, hholds⟩, hgenerics, hdemands, hbody⟩

variable {m}

theorem behind (hts : Tree.Spelled m.trees) : BehindName m.behindName := by
  obtain ⟨hhead, hgenerics, hdemands, hbody⟩ := m.leaves (Nat.le_refl _)
  have hbehind : m.behindName <:+ m.trees := (List.suffix_cons _ _).trans <| hhead.owner.suffix.trans <|
    hhead.type.suffix.trans hhead.decorations.suffix
  have hafter := (List.suffix_cons _ _).trans (hgenerics.suffix.trans hbehind)
  exact behindName_of_leaves (hts.of_subset hbehind.subset) hgenerics
    (.method (closes_of_leaves (hts.of_subset hafter.subset) (leaves_andThen.mpr ⟨_, hdemands, hbody⟩)))

theorem type_ne_nil (hts : Tree.Spelled m.trees) : m.type ≠ [] := by
  intro hnil
  have hne := (m.leaves (Nat.le_refl _)).1.type_ne hts (behind hts)
  rw [hnil] at hne
  exact hne rfl

/-- A method is read as the parts say that are kept. -/
theorem whole?_method (hts : Tree.Spelled m.trees) :
    Reader.whole? Reader.method m.trees = (Reader.parameters? m.parameters m.closing).map m.signature := by
  obtain ⟨hhead, hgenerics, hdemands, hbody⟩ := m.leaves (Nat.le_refl _)
  exact Reader.whole?_method (Nat.le_refl _) hts hhead hgenerics (leaves_andThen.mpr ⟨_, hdemands, hbody⟩)

/-- A method is no property. -/
theorem whole?_property (hts : Tree.Spelled m.trees) : Reader.whole? Reader.property m.trees = none := by
  obtain ⟨hhead, hgenerics, -⟩ := m.leaves (Nat.le_refl _)
  have hbehind : Tree.Spelled m.behindName := hts.of_subset ((List.suffix_cons _ _).trans <|
    hhead.owner.suffix.trans <| hhead.type.suffix.trans hhead.decorations.suffix).subset
  rw [Reader.property_eq, Reader.whole?_memberHead (Nat.le_refl _) hts hhead (behind hts) fun _ us _ hus h =>
    .plain (.property (Reader.begins_of_mem_propertyRest hus h)), Option.eq_none_iff_forall_ne_some]
  exact fun p hp =>
    Reader.not_begins_of_parameters hgenerics (Reader.begins_of_mem_propertyRest hbehind (Reader.mem_of_whole? hp))

/-- **A method** becomes a node as its parts say, if its parameters are read. -/
theorem declaration?_eq {read : Scope → List Tree → List Node} (hts : Tree.Spelled m.trees) :
    Node.declaration? read .body m.trees =
      ((Reader.parameters? m.parameters m.closing).map fun ps => .method (Node.spanOf m.trees) (m.signature ps)).or
        ((Node.kindOf? Node.memberKinds m.trees).map fun kind => .other (Node.spanOf m.trees) kind []) := by
  obtain ⟨hhead, -⟩ := m.leaves (Nat.le_refl _)
  rw [Node.declaration?_of_typed (Nat.le_refl _) hts hhead.decorations (hhead.isTyped hts (behind hts)),
    Node.member?_eq, whole?_method hts, whole?_property hts, Option.map_none, Option.none_or, Option.map_map]
  rfl

end MethodParts

/-! ### Properties -/

/-- The parts of a property. -/
structure PropertyParts where
  /-- Attributes and modifiers. -/
  front : List Tree
  type : List Tree
  /-- The interface of which a member is implemented, with a dot behind it. -/
  owner : List Tree
  name : Token
  /-- The accessors, or an arrow, and a value. -/
  rest : List Tree
  divides : Divides [memberDecorations, memberType, Rule.owner, memberName,
    accessors ++ Phrase.optional initialValue <|> arrowBody] [front, type, owner, [.token name], rest]

namespace PropertyParts

variable (p : PropertyParts)

/-- The trees of a property. -/
def trees : List Tree :=
  p.front ++ (p.type ++ (p.owner ++ .token p.name :: p.rest))

theorem leaves {fuel : Nat} (hfuel : Tree.ruleDepth p.trees ≤ fuel) :
    MemberHead fuel p.trees (p.type ++ (p.owner ++ .token p.name :: p.rest)) (p.owner ++ .token p.name :: p.rest)
      p.name p.rest ∧
    Leaves fuel (accessors ++ Phrase.optional initialValue <|> arrowBody) p.rest [] := by
  have hflatten : p.trees = [p.front, p.type, p.owner, [.token p.name], p.rest].flatten := by
    simp [trees]
  rw [hflatten] at hfuel
  obtain ⟨hfront, htype, howner, hname, hrest, -⟩ := p.divides.leaves hfuel
  simp only [List.flatten_cons, List.flatten_nil, List.append_nil, List.singleton_append] at *
  obtain ⟨_, heq, hholds⟩ := leaves_one.mp hname
  obtain rfl := Tree.token.inj (List.cons.inj heq).1
  exact ⟨⟨hflatten ▸ hfront, htype, howner, hholds⟩, hrest⟩

variable {p}

theorem behind (hts : Tree.Spelled p.trees) : BeginsIn [.group .curly, .mark "=>"] p.rest := by
  obtain ⟨hhead, hend⟩ := p.leaves (Nat.le_refl _)
  have hrest : Tree.Spelled p.rest := hts.of_subset ((List.suffix_cons _ _).trans <|
    hhead.owner.suffix.trans <| hhead.type.suffix.trans hhead.decorations.suffix).subset
  rcases leaves_orElse.mp hend with h | h
  · exact (startsIn_within.andThen _ _ hrest h).mono (by decide)
  · exact (Reader.startsIn_arrowBody _ _ hrest h).mono (by decide)

theorem type_ne_nil (hts : Tree.Spelled p.trees) : p.type ≠ [] := by
  intro hnil
  have hne := (p.leaves (Nat.le_refl _)).1.type_ne hts (.plain (.property (behind hts)))
  rw [hnil] at hne
  exact hne rfl

/-- **A property** becomes a node as its parts say, if its accessors are read. -/
theorem declaration?_eq {read : Scope → List Tree → List Node} (hts : Tree.Spelled p.trees) :
    Node.declaration? read .body p.trees =
      ((Reader.whole? (Reader.propertyRest (Tree.verbatim p.type, p.name.text)) p.rest).map
        (.property (Node.spanOf p.trees))).or
        ((Node.kindOf? Node.memberKinds p.trees).map fun kind => .other (Node.spanOf p.trees) kind []) := by
  obtain ⟨hhead, -⟩ := p.leaves (Nat.le_refl _)
  have htyped := hhead.isTyped hts (.plain (.property (behind hts)))
  rw [Node.declaration?_of_typed (Nat.le_refl _) hts hhead.decorations htyped, Node.member?_eq,
    Reader.whole?_method_of_property hts hhead (Nat.le_refl _) (behind hts), Option.map_none, Option.none_or,
    Reader.whole?_property (Nat.le_refl _) hts hhead (behind hts)]

end PropertyParts

/-! ### Interfaces -/

/-- The parts of an interface. -/
structure InterfaceParts where
  /-- Attributes and modifiers. -/
  front : List Tree
  word : Token
  name : Token
  /-- Type parameters. -/
  generics : List Tree
  colon : Token
  base : List Tree
  /-- What is demanded of the type parameters. -/
  demands : List Tree
  body : List Tree
  divides : Divides [decorations, the "interface", Phrase.name, Phrase.optional (typeParametersBut []), the ":",
      rule .type, constraints, Rule.typeEnd (anyGroup .curly)]
    [front, [.token word], [.token name], generics, [.token colon], base, demands, body]

namespace InterfaceParts

variable (i : InterfaceParts)

/-- What is behind the name. -/
def behindName : List Tree :=
  i.generics ++ .token i.colon :: (i.base ++ (i.demands ++ i.body))

/-- The trees of an interface. -/
def trees : List Tree :=
  i.front ++ .token i.word :: .token i.name :: i.behindName

theorem leavesInTurn {fuel : Nat} (hfuel : Tree.ruleDepth i.trees ≤ fuel) :
    i.word.isText "interface" = true ∧
      InterfaceHead fuel i.trees i.behindName i.name i.colon i.base (i.demands ++ i.body) := by
  have hflatten : i.trees = [i.front, [.token i.word], [.token i.name], i.generics, [.token i.colon], i.base, i.demands,
      i.body].flatten := by
    simp [trees, behindName]
  rw [hflatten] at hfuel
  obtain ⟨hfront, hword, hname, hgenerics, hcolon, hbase, hdemands, hbody, -⟩ := i.divides.leaves hfuel
  simp only [List.flatten_cons, List.flatten_nil, List.append_nil, List.singleton_append] at *
  obtain ⟨_, heq, hkeyword⟩ := leaves_one.mp hword
  obtain rfl := Tree.token.inj (List.cons.inj heq).1
  obtain ⟨_, heq, hholds⟩ := leaves_one.mp hname
  obtain rfl := Tree.token.inj (List.cons.inj heq).1
  obtain ⟨_, heq, htext⟩ := leaves_one.mp hcolon
  obtain rfl := Tree.token.inj (List.cons.inj heq).1
  exact ⟨hkeyword, leaves_andThen.mpr ⟨_, hflatten ▸ hfront, hword⟩, hholds, hgenerics, htext, hbase,
    leaves_andThen.mpr ⟨_, hdemands, hbody⟩⟩

theorem leaves {fuel : Nat} (hfuel : Tree.ruleDepth i.trees ≤ fuel) :
    InterfaceHead fuel i.trees i.behindName i.name i.colon i.base (i.demands ++ i.body) :=
  (i.leavesInTurn hfuel).2

/-- Whether the parentheses at the end of the base could be arguments. -/
def Arguable : Prop :=
  Phrase.Arguable (Tree.ruleDepth i.trees) (i.base ++ (i.demands ++ i.body)) (i.demands ++ i.body)

variable {i} {read : List Tree → List Node}

theorem begins : Leaves (Tree.ruleDepth i.trees) blockStart i.trees (.token i.name :: i.behindName) :=
  leaves_orElse.mpr (.inr (i.leaves (Nat.le_refl _)).start)

/-- **An interface** becomes a node as its name and its base say, if nothing behind the base could be arguments. -/
theorem sharedDeclaration?_eq (hts : Tree.Spelled i.trees) (hclosed : Tree.areClosed i.trees = true)
    (hplain : ¬ i.Arguable) : Node.sharedDeclaration? read i.trees =
      some (.interface (Node.spanOf i.trees) ⟨i.name.text, some [Tree.verbatim i.base]⟩ (read (Node.bodyOf i.trees))) := by
  have hhead := i.leaves (Nat.le_refl _)
  obtain ⟨inner, hinner⟩ := Reader.whole?_interface (Nat.le_refl _) hts hhead hplain
  rw [(Node.body_of_interface hinner).bodyOf_eq hclosed, Node.sharedDeclaration?,
    Node.namespaceBlock_of_interface (Nat.le_refl _) hts hhead.start, hinner]

/-- If something behind the base could be arguments, it is a second base. -/
theorem exists_of_arguable (hts : Tree.Spelled i.trees) (harguable : i.Arguable) :
    ∃ header inner first second, Node.sharedDeclaration? read i.trees =
      some (.interface (Node.spanOf i.trees) header (read inner)) ∧ header.bases = some [first, second] := by
  have hhead := i.leaves (Nat.le_refl _)
  obtain ⟨header, inner, first, second, hwhole, hbases⟩ :=
    Reader.exists_of_arguable (Nat.le_refl _) hts hhead harguable
  refine ⟨header, inner, first, second, ?_, hbases⟩
  rw [Node.sharedDeclaration?, Node.namespaceBlock_of_interface (Nat.le_refl _) hts hhead.start, hwhole]

theorem arguable_iff {fuel : Nat} (hfuel : Tree.ruleDepth i.trees ≤ fuel) :
    i.Arguable ↔ Phrase.Arguable fuel (i.base ++ (i.demands ++ i.body)) (i.demands ++ i.body) := by
  have hle := ruleDepth_le_of_suffix (i.leaves hfuel).suffix
  exact Reader.arguable_iff_of_le hle (Nat.le_trans hle hfuel)

/-- Whether the parentheses could be arguments is seen from the base alone. -/
theorem arguable_of_relabel {i' : InterfaceParts} {φ : Relabelling} (hts : Tree.Spelled i.trees)
    (hts' : Tree.Spelled i'.trees) (hbase : i'.base = i.base.map (Tree.relabel φ)) (h : i'.Arguable) : i.Arguable := by
  have hfuel := Nat.le_max_left (Tree.ruleDepth i.trees) (Tree.ruleDepth i'.trees)
  have hfuel' := Nat.le_max_right (Tree.ruleDepth i.trees) (Tree.ruleDepth i'.trees)
  have hhead' := i'.leaves hfuel'
  have hbase' := hhead'.base
  have hspelled' := hts'.of_subset hhead'.suffix.subset
  rw [arguable_iff hfuel'] at h
  rw [hbase] at h hbase' hspelled'
  exact (arguable_iff hfuel).mpr (Reader.arguable_of_relabel (hts.of_subset (i.leaves hfuel).suffix.subset) hspelled'
    hbase' (hhead'.headerEnd hts') h)

end InterfaceParts

/-! ### Namespaces -/

/-- The parts of a namespace. -/
structure NamespaceParts where
  word : Token
  name : List Tree
  body : List Tree
  divides : Divides [the "namespace", qualifiedNameBut [], closedBody (anyGroup .curly)] [[.token word], name, body]

namespace NamespaceParts

variable (s : NamespaceParts)

/-- The trees of a namespace. -/
def trees : List Tree :=
  .token s.word :: (s.name ++ s.body)

theorem leaves {fuel : Nat} (hfuel : Tree.ruleDepth s.trees ≤ fuel) :
    Leaves fuel (the "namespace") s.trees (s.name ++ s.body) ∧
      Leaves fuel (qualifiedNameBut []) (s.name ++ s.body) s.body ∧
      Leaves fuel (closedBody (anyGroup .curly)) s.body [] := by
  have hflatten : s.trees = [[.token s.word], s.name, s.body].flatten := by
    simp [trees]
  rw [hflatten] at hfuel
  obtain ⟨hword, hname, hbody, -⟩ := s.divides.leaves hfuel
  simp only [List.flatten_cons, List.flatten_nil, List.append_nil] at *
  exact ⟨hword, hname, hbody⟩

variable {s} {read : List Tree → List Node}

theorem begins : Leaves (Tree.ruleDepth s.trees) blockStart s.trees (s.name ++ s.body) :=
  leaves_orElse.mpr (.inl (s.leaves (Nat.le_refl _)).1)

/-- **A namespace** becomes a node as its name says. -/
theorem sharedDeclaration?_eq (hts : Tree.Spelled s.trees) (hclosed : Tree.areClosed s.trees = true) :
    Node.sharedDeclaration? read s.trees =
      some (.namespaceBlock (Node.spanOf s.trees) (Tree.verbatim s.name) (read (Node.bodyOf s.trees))) := by
  obtain ⟨hword, hname, hbody⟩ := s.leaves (Nat.le_refl _)
  obtain ⟨inner, hinner⟩ := Reader.whole?_namespaceBlock (Nat.le_refl _) hts hword hname hbody
  rw [(Node.body_of_namespaceBlock hinner).bodyOf_eq hclosed, Node.sharedDeclaration?, hinner]

/-- In a file, a namespace is a declaration of the file. -/
theorem fits_fileItem : (fileItemWith (anyGroup .curly)).fits s.trees = true := by
  obtain ⟨hword, hname, hbody⟩ := s.leaves (Nat.le_refl _)
  have hblock : Leaves (Tree.ruleDepth s.trees) (Rule.namespaceBlock (anyGroup .curly)) s.trees [] :=
    leaves_andThen.mpr ⟨_, leaves_andThen.mpr ⟨_, hword, hname⟩, hbody⟩
  exact Node.fits_of_leaves (Nat.le_refl _) (leaves_alternatives.mpr
    ⟨_, .tail _ (.tail _ (.tail _ (.tail _ (.head _)))), hblock⟩)

end NamespaceParts

end InteropStubs
