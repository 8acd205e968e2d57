import InteropStubs.Generate

/-!
# Violations

A `Violation` is a node that no stub can be made of, together with the reason. `Node.violations`
lists all of them in document order, a container before its members, without running anything:

* a node of a file or namespace that is no namespace, using directive or interface;
* an interface whose bases name no binding (`Interface.baseBreach?`);
* a member of an interface that is neither method nor property, whatever the bases of the interface
  are.

`Interface.binding_eq_error_iff` and `Interface.baseBreach?_eq_none_iff` compare the check of the
bases with `Interface.binding`, and `Node.filter_violations` compares the list with what the
traversal of the interfaces alone finds.
-/

namespace InteropStubs

/-! ### What is wrong with a single node -/

/-- Why the bases of an interface name no binding: there is no base list, or there is more than one
base, or the only base, the empty text for an empty list, is no marker. -/
def Interface.baseBreach? (i : Interface) (config : Config) : Option Cause :=
  match i.bases with
  | none => some (.noBase i.name)
  | some bases =>
    let base := bases.headD ""
    if 1 < bases.length then some (.severalBases i.name)
    else if base = config.globalObjectMarker ∨ base = config.objectWrapperMarker then none
    else some (.unknownBase base)

/-- A node that no stub can be made of, and why. -/
structure Violation where
  node : Node
  cause : Cause

/-- What is reported of a violation. -/
def Violation.diagnostic (locate : Nat → Location) (v : Violation) : Diagnostic :=
  v.cause.at (locate v.node.span.start)

/-- Whether a cause is about the bases of an interface. -/
def Cause.isAboutBases : Cause → Bool
  | noBase _ | severalBases _ | unknownBase _ => true
  | unexpected _ | missing _ | unexpectedMember _ => false

namespace Node

/-- What is wrong with a node of a file or namespace, apart from what stands in it. -/
def breach? (config : Config) : Node → Option Cause
  | namespaceBlock .. | usingDirective _ => none
  | interface _ header _ => header.baseBreach? config
  | n => some (.unexpected n.typeName)

/-- What is wrong with a member of an interface. -/
def memberBreach? : Node → Option Cause
  | method .. | property .. => none
  | n => some (.unexpectedMember n.span.text)

/-- The violation that a node is, if something is wrong with it. -/
def own (n : Node) (breach? : Option Cause) : List Violation :=
  breach?.toList.map fun c => ⟨n, c⟩

/-! ### All violations in document order -/

/-- The violations among the members of an interface. -/
def memberViolations (members : List Node) : List Violation :=
  members.flatMap fun n => n.own n.memberBreach?

mutual

/-- The violations at or below a node of a file or namespace. -/
def violationsIn (config : Config) : Node → List Violation
  | namespaceBlock _ _ members => violations config members
  | n@(interface _ _ members) => n.own (n.breach? config) ++ memberViolations members
  | n => n.own (n.breach? config)

/-- The violations of a list of nodes. -/
def violations (config : Config) : List Node → List Violation
  | [] => []
  | n :: ns => violationsIn config n ++ violations config ns

end

theorem violations_append (config : Config) (ns ms : List Node) :
    violations config (ns ++ ms) = violations config ns ++ violations config ms := by
  induction ns with
  | nil => rfl
  | cons n ns ih => simp only [List.cons_append, violations, ih, List.append_assoc]

theorem violationsIn_of_breach? {config : Config} {n : Node} {c : Cause}
    (h : n.breach? config = some c) : ∃ rest, violationsIn config n = ⟨n, c⟩ :: rest := by
  cases n with
  | namespaceBlock | usingDirective => simp [breach?] at h
  | interface span header members =>
      exact ⟨memberViolations members, by simp [violationsIn, own, h]⟩
  | method | property | other | error | missing => exact ⟨[], by simp [violationsIn, own, h]⟩

theorem memberViolations_append (ms ns : List Node) :
    memberViolations (ms ++ ns) = memberViolations ms ++ memberViolations ns :=
  List.flatMap_append

theorem memberViolations_cons_of_memberBreach? {n : Node} {c : Cause}
    (h : n.memberBreach? = some c) (ns : List Node) :
    memberViolations (n :: ns) = ⟨n, c⟩ :: memberViolations ns := by
  simp [memberViolations, own, h]

end Node

/-! ### The check of the bases -/

namespace Interface

theorem binding_eq_error_iff (i : Interface) (config : Config) (c : Cause) :
    i.binding config = .error c ↔ i.baseBreach? config = some c := by
  rcases hb : i.bases with _ | _ | ⟨base, _ | ⟨second, rest⟩⟩
  · simp [binding, baseBreach?, hb]
  · simp only [binding, baseBreach?, hb]; grind
  · simp only [binding, baseBreach?, hb]; grind
  · simp [binding, baseBreach?, hb]

theorem baseBreach?_eq_none_iff (i : Interface) (config : Config) :
    i.baseBreach? config = none ↔ ∃ b, i.binding config = .ok b := by
  cases h : i.binding config with
  | ok b =>
      have hne (c : Cause) : i.baseBreach? config ≠ some c := fun hc => by
        simp [(binding_eq_error_iff i config c).mpr hc] at h
      simpa using Option.eq_none_iff_forall_ne_some.mpr hne
  | error c => simp [(binding_eq_error_iff i config c).mp h]

theorem baseBreach?_eq_none {i : Interface} {config : Config} {b : Binding}
    (h : i.binding config = .ok b) : i.baseBreach? config = none :=
  (baseBreach?_eq_none_iff i config).mpr ⟨b, h⟩

theorem isAboutBases_of_baseBreach? {i : Interface} {config : Config} {c : Cause}
    (h : i.baseBreach? config = some c) : c.isAboutBases = true := by
  unfold baseBreach? at h
  grind [Cause.isAboutBases]

end Interface

/-! ### Interfaces without violations -/

namespace Node

/-- An interface without violations is bound, and nothing is wrong with its members. -/
theorem exists_binding_of_violationsIn {config : Config} {span : Span} {header : Interface}
    {members : List Node} (h : violationsIn config (interface span header members) = []) :
    ∃ b, header.binding config = .ok b ∧ memberViolations members = [] := by
  obtain ⟨hown, hmembers⟩ := List.append_eq_nil_iff.mp h
  have hbreach : header.baseBreach? config = none := by simpa [own, breach?] using hown
  obtain ⟨b, hb⟩ := (header.baseBreach?_eq_none_iff config).mp hbreach
  exact ⟨b, hb, hmembers⟩

/-- Members without violations are methods and properties. -/
theorem method_or_property_of_mem {members : List Node} (h : memberViolations members = [])
    {n : Node} (hn : n ∈ members) : (∃ s m, n = method s m) ∨ ∃ s p, n = property s p := by
  have hown : n.own n.memberBreach? = [] := List.flatMap_eq_nil_iff.mp h n hn
  cases n with
  | method s m => exact .inl ⟨s, m, rfl⟩
  | property s p => exact .inr ⟨s, p, rfl⟩
  | namespaceBlock | usingDirective | interface | other | error | missing =>
      simp [own, memberBreach?] at hown

/-! ### Violations at the interfaces -/

theorem filter_own_isAboutBases (n : Node) {breach? : Option Cause}
    (h : ∀ c ∈ breach?, c.isAboutBases = true) :
    (n.own breach?).filter (·.cause.isAboutBases) = n.own breach? := by
  cases breach? with
  | none => rfl
  | some c => simp [own, h c rfl]

theorem filter_own_not_isAboutBases (n : Node) {breach? : Option Cause}
    (h : ∀ c ∈ breach?, c.isAboutBases = false) :
    (n.own breach?).filter (·.cause.isAboutBases) = [] := by
  cases breach? with
  | none => rfl
  | some c => simp [own, h c rfl]

theorem filter_memberViolations (members : List Node) :
    (memberViolations members).filter (·.cause.isAboutBases) = [] := by
  induction members with
  | nil => rfl
  | cons n ns ih =>
      have hn : ∀ c ∈ n.memberBreach?, c.isAboutBases = false := by
        cases n <;> simp [memberBreach?, Cause.isAboutBases]
      simp only [memberViolations, List.flatMap_cons, List.filter_append,
        filter_own_not_isAboutBases n hn, List.nil_append]
      exact ih

/-- The violation at an interface that `interfaces` finds. -/
def interfaceViolation (config : Config) (found : Node × Interface) : List Violation :=
  found.1.own (found.2.baseBreach? config)

mutual

theorem filter_violationsIn (config : Config) : ∀ n : Node,
    (violationsIn config n).filter (·.cause.isAboutBases) =
      (interfacesIn n).flatMap (interfaceViolation config)
  | namespaceBlock _ _ members => filter_violations config members
  | interface span header members => by
      have hown := filter_own_isAboutBases (interface span header members)
        fun _ (hc : header.baseBreach? config = some _) => Interface.isAboutBases_of_baseBreach? hc
      simp only [violationsIn, interfacesIn, interfaceViolation, breach?, List.filter_append,
        filter_memberViolations, hown, List.flatMap_singleton, List.append_nil]
  | usingDirective _ | method _ _ | property _ _ | other _ _ _ | error _ _ | missing _ _ => by
      simp [violationsIn, interfacesIn, breach?, own, Cause.isAboutBases]

/-- **The two traversals agree.**  The violations about bases are those of the interfaces, in the
order in which `interfaces` finds them. -/
theorem filter_violations (config : Config) : ∀ ns : List Node,
    (violations config ns).filter (·.cause.isAboutBases) =
      (interfaces ns).flatMap (interfaceViolation config)
  | [] => rfl
  | n :: ns => by
      simp only [violations, interfaces, List.filter_append, List.flatMap_append,
        filter_violationsIn config n, filter_violations config ns]

end

end Node

end InteropStubs
