import InteropStubs.Proofs.Generate.Bare
import InteropStubs.Proofs.Generate.Receiver
import InteropStubs.Proofs.Generate.Within
import Mathlib.Algebra.GroupWithZero.Nat

/-!
# Forwarded accessors

Whether properties forward their accessors decides about the lines of accessors and about nothing else
(`generateLines_withAccessors`). A source is refused with and without these lines for the same reason, and `Forwarding`
says how the lines that are generated compare: between the braces of every property stands one line for each accessor,
or none.
-/

namespace InteropStubs

/-- A configuration whose properties forward their accessors, or do not. -/
def Config.withAccessors (config : Config) (forwards : Bool) : Config :=
  { config with propertyAccessors := forwards }

/-! ### Lines with and without accessors -/

/-- The first lines are the second ones with the accessors of the properties `ps`, in order, between the braces of
each. -/
inductive Forwarding : (ps : List Property) → List Line → List Line → Prop where
  | nil : Forwarding [] [] []
  | line (l : Line) {ps : List Property} {ls ms : List Line} (h : Forwarding ps ls ms) :
      Forwarding ps (l :: ls) (l :: ms)
  | property (p : Property) (isStatic : Bool) (depth : Nat) {ps : List Property} {ls ms : List Line}
      (h : Forwarding ps ls ms) :
      Forwarding (p :: ps)
        (⟨depth, visibilityText isStatic ++ (p.type ++ " " ++ p.name)⟩ :: ⟨depth, openBrace⟩ ::
          ((p.accessors.map fun word => ⟨depth + 1, p.accessorLine word⟩) ++ ⟨depth, closeBrace⟩ :: ls))
        (⟨depth, visibilityText isStatic ++ (p.type ++ " " ++ p.name)⟩ :: ⟨depth, openBrace⟩ :: ⟨depth, closeBrace⟩ :: ms)

namespace Forwarding

variable {ps qs : List Property} {ls ms ls' ms' : List Line}

theorem refl : ∀ ls : List Line, Forwarding [] ls ls
  | [] => .nil
  | l :: ls => .line l (refl ls)

theorem append (h : Forwarding ps ls ms) (h' : Forwarding qs ls' ms') :
    Forwarding (ps ++ qs) (ls ++ ls') (ms ++ ms') := by
  induction h with
  | nil => exact h'
  | line l h ih => exact .line l ih
  | property p isStatic depth h ih => simpa using Forwarding.property p isStatic depth ih

theorem deeper (k : Nat) (h : Forwarding ps ls ms) : Forwarding ps (Line.deeper k ls) (Line.deeper k ms) := by
  induction h with
  | nil => exact .nil
  | line l h ih => exact .line _ ih
  | property p isStatic depth h ih =>
      simpa [Line.deeper, Nat.add_right_comm, Function.comp_def] using
        Forwarding.property p isStatic (depth + k) ih

theorem nested (headers : List String) (h : Forwarding ps ls ms) :
    Forwarding ps (Line.nested headers ls) (Line.nested headers ms) := by
  simpa [Line.nested] using ((refl (Line.openers headers)).append (h.deeper headers.length)).append
    (refl (Line.closers headers.length))

/-- **There are as many more lines as there are accessors.** -/
theorem length_eq (h : Forwarding ps ls ms) :
    ls.length = ms.length + (ps.map fun p => p.accessors.length).sum := by
  induction h with
  | nil => rfl
  | line l h ih => rw [List.length_cons, List.length_cons, ih]; omega
  | property p isStatic depth h ih =>
      simp only [List.length_cons, List.length_append, List.length_map, List.map_cons, List.sum_cons, ih]
      omega

end Forwarding

theorem Property.forwarding_layout (p : Property) (config : Config) (isStatic : Bool) :
    Forwarding [p] (p.layout (config.withAccessors true) isStatic)
      (p.layout (config.withAccessors false) isStatic) := by
  simpa [Property.layout, Config.withAccessors, Line.nested, Line.openers, Line.closers, Line.deeper,
    Function.comp_def] using Forwarding.property p isStatic 0 (.refl [Line.blank])

/-! ### Nodes -/

namespace Node

/-- The properties that are declared at or below the nodes of a list, in document order. -/
def allProperties (ns : List Node) : List Property :=
  (all ns).filterMap property?

variable {config : Config}

theorem allProperties_cons (n : Node) (ns : List Node) :
    allProperties (n :: ns) = allProperties [n] ++ allProperties ns := by
  simp [allProperties, all]

theorem allProperties_namespaceBlock (span : Span) (name : String) (ms : List Node) :
    allProperties [namespaceBlock span name ms] = allProperties ms := by
  simp [allProperties, all, allIn, property?, List.filterMap_cons]

theorem allProperties_interface (span : Span) (header : Interface) (ms : List Node) :
    allProperties [interface span header ms] = allProperties ms := by
  simp [allProperties, all, allIn, property?, List.filterMap_cons]

theorem forwarding_membersLayout (config : Config) (isStatic : Bool) {members : List Node} (h : memberViolations members = []) :
    Forwarding (allProperties members) (membersLayout (config.withAccessors true) isStatic members)
      (membersLayout (config.withAccessors false) isStatic members) := by
  induction members with
  | nil => exact .nil
  | cons n ns ih =>
      have hns : memberViolations ns = [] := (List.append_eq_nil_iff.mp h).2
      rw [allProperties_cons]
      refine Forwarding.append ?_ (ih hns)
      rcases method_or_property_of_mem h List.mem_cons_self with ⟨_, m, rfl⟩ | ⟨_, p, rfl⟩
      · exact .refl _
      · exact p.forwarding_layout config isStatic

mutual

theorem forwarding_renderNode : ∀ n : Node, violationsIn config n = [] →
    Forwarding (allProperties [n]) (renderNode (config.withAccessors true) n)
      (renderNode (config.withAccessors false) n)
  | namespaceBlock span name ms, h => by
      rw [allProperties_namespaceBlock]
      exact (forwarding_render ms h).nested ["namespace " ++ name]
  | usingDirective span, _ => .refl _
  | interface span header ms, h => by
      obtain ⟨b, hb, hms⟩ := exists_binding_of_violationsIn h
      have hbinding (forwards : Bool) : header.binding (config.withAccessors forwards) = .ok b := hb
      have hmembers := (Forwarding.refl (b.preamble config header.name)).append
        (forwarding_membersLayout config b.isStatic hms)
      have hclass := (hmembers.nested (b.headers config header.name)).append (.refl [Line.blank])
      rw [allProperties_interface, renderNode, renderNode, hbinding, hbinding]
      rw [List.nil_append, List.append_nil] at hclass
      exact hclass
  | method .., h | property .., h | other .., h | error .., h | missing .., h => by
      simp [violationsIn, own, breach?] at h

/-- **Only the accessors make a difference** to what is generated. -/
theorem forwarding_render : ∀ ns : List Node, violations config ns = [] →
    Forwarding (allProperties ns) (render (config.withAccessors true) ns) (render (config.withAccessors false) ns)
  | [], _ => .nil
  | n :: ns, h => by
      obtain ⟨hn, hns⟩ := List.append_eq_nil_iff.mp h
      rw [allProperties_cons]
      exact (forwarding_renderNode n hn).append (forwarding_render ns hns)

end

mutual

theorem violationsIn_withAccessors (forwards : Bool) : ∀ n : Node,
    violationsIn (config.withAccessors forwards) n = violationsIn config n
  | namespaceBlock _ _ ms => violations_withAccessors forwards ms
  | usingDirective _ | interface .. | method .. | property .. | other .. | error .. | missing .. => rfl

/-- Whether accessors are forwarded has no influence on what is wrong. -/
theorem violations_withAccessors (forwards : Bool) : ∀ ns : List Node,
    violations (config.withAccessors forwards) ns = violations config ns
  | [] => rfl
  | n :: ns => by
      rw [violations, violations, violationsIn_withAccessors forwards n, violations_withAccessors forwards ns]

end

end Node

/-! ### Sources -/

variable {config : Config} {source : String}

theorem faults_withAccessors (forwards : Bool) :
    faults (config.withAccessors forwards) source = faults config source := by
  rw [faults, faults, File.violations, File.violations, Node.violations_withAccessors]

/-- **Forwarding adds the lines of accessors and nothing else.** Whether accessors are forwarded or not, a source is
refused for the same reason. If it is not refused, the lines that are generated with accessors are those without, and
between the braces of each property one line for each of its accessors; so there are as many more lines as there are
accessors in the file. -/
theorem generateLines_withAccessors (config : Config) (source : String) :
    match generateLines (config.withAccessors true) source with
    | .error stop =>
      generateLines (config.withAccessors false) source = .error stop ∧
        generate (config.withAccessors true) source = .error stop ∧
        generate (config.withAccessors false) source = .error stop
    | .ok lines =>
      ∃ ls ms : List Line,
        lines = fileHeader ++ ls.map (Line.indented config.indent 0) ∧
        generateLines (config.withAccessors false) source =
          .ok (fileHeader ++ ms.map (Line.indented config.indent 0)) ∧
        generate (config.withAccessors true) source = .ok (String.join (lines.map (· ++ "\n"))) ∧
        generate (config.withAccessors false) source =
          .ok (String.join ((fileHeader ++ ms.map (Line.indented config.indent 0)).map (· ++ "\n"))) ∧
        Forwarding (Node.allProperties (File.read source).nodes) ls ms ∧
        ls.length = ms.length +
          ((Node.allProperties (File.read source).nodes).map fun p => p.accessors.length).sum := by
  have hlines (forwards : Bool) := generate_eq_map_generateLines (config.withAccessors forwards) source
  rw [hlines, hlines]
  -- The faults of a source do not depend on whether accessors are forwarded, so both runs come to one end.
  cases hfaults : faults config source with
  | cons d ds =>
      have hrefused (forwards : Bool) :
          generateLines (config.withAccessors forwards) source = .error (.refused d) := by
        obtain ⟨ls, hprints⟩ := Emit.source_prints (config.withAccessors forwards) source
        rw [generateLines_of_prints hprints, faults_withAccessors, hfaults]
        rfl
      rw [hrefused, hrefused]
      exact ⟨rfl, rfl, rfl⟩
  | nil =>
      have hv : Node.violations config (File.read source).nodes = [] :=
        List.map_eq_nil_iff.mp (List.append_eq_nil_iff.mp hfaults).2
      have hgenerated (forwards : Bool) :
          generateLines (config.withAccessors forwards) source = .ok (fileHeader ++
            (Node.render (config.withAccessors forwards) (File.read source).nodes).map
              (Line.indented config.indent 0)) :=
        generateLines_of_prints (source_prints_render ((Node.violations_withAccessors forwards _).trans hv))
      have hforwarding := Node.forwarding_render _ hv
      rw [hgenerated, hgenerated]
      exact ⟨_, _, rfl, rfl, rfl, rfl, hforwarding, hforwarding.length_eq⟩

end InteropStubs
