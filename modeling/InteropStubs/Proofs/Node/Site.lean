import InteropStubs.Proofs.Node.Printout

/-!
# Sites

A `Site` is a place for a node in a list of nodes: in the list itself, in a namespace of it at any
depth, or among the members of an interface. `Site.plug` puts a node there. A site is *clear* if
nothing that stands in front of it in document order is a violation (`Site.Clear`).

A violation at a clear site is the first one of the list (`Site.violations_plug`), and every list
that has violations has its first one at a clear site (`Node.exists_site`).

Where there is a violation at a clear site, generation prints `Site.printed`, what stands in front
of the site inside the blocks that are open there, and then closes these blocks
(`Site.plug_prints`).
-/

namespace InteropStubs

open Emit Node

/-- A place for a node in a list of nodes. -/
inductive Site where
  /-- Between two parts of the list. -/
  | among (before after : List Node)
  /-- At a site of the members of a namespace of the list. -/
  | inNamespace (before : List Node) (span : Span) (name : String) (inner : Site)
      (after : List Node)
  /-- Between two parts of the members of an interface of the list that is bound as `b`. -/
  | inInterface (before : List Node) (span : Span) (header : Interface) (b : Binding)
      (membersBefore membersAfter : List Node) (after : List Node)

namespace Site

/-- The list of nodes with `n` at the site. -/
def plug : Site → Node → List Node
  | among before after, n => before ++ n :: after
  | inNamespace before span name inner after, n =>
    before ++ .namespaceBlock span name (inner.plug n) :: after
  | inInterface before span header _ membersBefore membersAfter after, n =>
    before ++ .interface span header (membersBefore ++ n :: membersAfter) :: after

/-- The site with one more node in front. -/
def behind (first : Node) : Site → Site
  | among before after => among (first :: before) after
  | inNamespace before span name inner after =>
    inNamespace (first :: before) span name inner after
  | inInterface before span header b membersBefore membersAfter after =>
    inInterface (first :: before) span header b membersBefore membersAfter after

/-- What is wrong with a node that stands at the site. -/
def breach? (config : Config) : Site → Node → Option Cause
  | among .., n => n.breach? config
  | inNamespace _ _ _ inner _, n => inner.breach? config n
  | inInterface .., n => n.memberBreach?

/-- Nothing in front of the site is a violation, and the interface around it is bound. -/
def Clear (config : Config) : Site → Prop
  | among before _ => violations config before = []
  | inNamespace before _ _ inner _ => violations config before = [] ∧ inner.Clear config
  | inInterface before _ header b membersBefore _ _ =>
    violations config before = [] ∧ header.binding config = .ok b ∧
      memberViolations membersBefore = []

/-- The headers of the blocks that are open at the site, outermost first. -/
def headers (config : Config) : Site → List String
  | among .. => []
  | inNamespace _ _ name inner _ => ("namespace " ++ name) :: inner.headers config
  | inInterface _ _ header b _ _ _ => b.headers config header.name

/-- What is printed in front of the site: the rendering of every node and member that stands there,
inside the headers and openers of the blocks that are open. -/
def printed (config : Config) : Site → List Line
  | among before _ => render config before
  | inNamespace before _ name inner _ =>
    render config before ++ Line.openers ["namespace " ++ name]
      ++ Line.deeper 1 (inner.printed config)
  | inInterface before _ header b membersBefore _ _ =>
    render config before ++ Line.openers (b.headers config header.name)
      ++ Line.deeper (b.headers config header.name).length
        (b.preamble config header.name ++ membersLayout config b.isStatic membersBefore)

theorem plug_behind (first n : Node) (s : Site) : (s.behind first).plug n = first :: s.plug n := by
  cases s <;> rfl

theorem breach?_behind (config : Config) (first n : Node) (s : Site) :
    (s.behind first).breach? config n = s.breach? config n := by
  cases s <;> rfl

theorem clear_behind {config : Config} {first : Node} {s : Site}
    (h : violationsIn config first = []) (hs : s.Clear config) : (s.behind first).Clear config := by
  cases s <;> simp_all [behind, Clear, violations]

/-! ### The first violation -/

variable {config : Config}

/-- **A violation at a clear site is the first one.** -/
theorem violations_plug {s : Site} {n : Node} {c : Cause} (hs : s.Clear config)
    (hc : s.breach? config n = some c) :
    ∃ rest, violations config (s.plug n) = ⟨n, c⟩ :: rest := by
  induction s with
  | among before after =>
      obtain ⟨rest, hn⟩ := violationsIn_of_breach? hc
      exact ⟨rest ++ violations config after, by
        rw [plug, violations_append, hs, violations, hn]; rfl⟩
  | inNamespace before span name inner after ih =>
      obtain ⟨rest, hinner⟩ := ih hs.2 hc
      exact ⟨rest ++ violations config after, by
        rw [plug, violations_append, hs.1, violations, violationsIn, hinner]; rfl⟩
  | inInterface before span header b membersBefore membersAfter after =>
      obtain ⟨hbefore, hb, hmembers⟩ := hs
      have hheader : (Node.interface span header (membersBefore ++ n :: membersAfter)).breach?
          config = none := Interface.baseBreach?_eq_none hb
      exact ⟨memberViolations membersAfter ++ violations config after, by
        rw [plug, violations_append, hbefore, violations, violationsIn, hheader,
          memberViolations_append, hmembers, memberViolations_cons_of_memberBreach? hc]; rfl⟩

/-! ### What a violation leaves -/

/-- **Generation up to a violation.**  What stands in front of the site is printed, the blocks that
are open there are closed, and the violation is reported. -/
theorem plug_prints (locate : Nat → Location) {s : Site} {n : Node} {c : Cause}
    (hs : s.Clear config) (hc : s.breach? config n = some c) :
    Prints (emitAll config locate (s.plug n)) (.error (.refused (c.at (locate n.span.start))))
      (s.printed config ++ Line.closers (s.headers config).length) := by
  induction s with
  | among before after =>
      rw [plug, emitAll_append]
      exact (emitAll_prints before hs).bind ((emit_prints_of_breach? hc).stop _)
  | inNamespace before span name inner after ih =>
      -- the members stop inside the block of the namespace, which adds its own closer
      have hblock := (ih hs.2 hc).block ("namespace " ++ name)
      have hlines : (inNamespace before span name inner after).printed config
            ++ Line.closers ((inNamespace before span name inner after).headers config).length
          = render config before ++ Line.nested ["namespace " ++ name]
              (inner.printed config ++ Line.closers (inner.headers config).length) := by
        rw [Line.nested_append_closers]
        simp only [printed, headers, List.length_cons, List.append_assoc]
      rw [plug, emitAll_append, hlines]
      exact (emitAll_prints before hs.1).bind (hblock.stop _)
  | inInterface before span header b membersBefore membersAfter after =>
      obtain ⟨hbefore, hb, hmembers⟩ := hs
      have hforM : Prints
          ((membersBefore ++ n :: membersAfter).forM (emitMember config locate b.isStatic))
          (.error (.refused (c.at (locate n.span.start))))
          (membersLayout config b.isStatic membersBefore) := by
        rw [List.forM_eq_forM, List.forM_append, ← List.append_nil (membersLayout ..)]
        exact (members_prints b.isStatic hmembers).bind
          ((emitMember_prints_of_memberBreach? b.isStatic hc).stop _)
      -- a class that stops has no empty line behind it
      have hclass := emitInterface_prints
        (.interface span header (membersBefore ++ n :: membersAfter)) hb hforM
      have hlines :
          (inInterface before span header b membersBefore membersAfter after).printed config
            ++ Line.closers (b.headers config header.name).length
          = render config before ++ (b.layout config header.name
              (membersLayout config b.isStatic membersBefore) ++ []) := by
        simp only [printed, Binding.layout, Line.nested, List.append_assoc, List.append_nil]
      rw [plug, emitAll_append, headers, hlines]
      exact (emitAll_prints before hbefore).bind (hclass.stop _)

end Site

namespace Node

/-- The first violation among the members of an interface stands between two parts of them. -/
theorem exists_memberSite {v : Violation} {rest : List Violation} :
    ∀ {members : List Node}, memberViolations members = v :: rest →
    ∃ before after, members = before ++ v.node :: after ∧ memberViolations before = [] ∧
      v.node.memberBreach? = some v.cause
  | [], h => by simp [memberViolations] at h
  | n :: ns, h => by
      cases hn : n.memberBreach? with
      | some c =>
          rw [memberViolations_cons_of_memberBreach? hn] at h
          obtain ⟨rfl, -⟩ := List.cons_eq_cons.mp h
          exact ⟨[], ns, rfl, rfl, hn⟩
      | none =>
          have hcons (ms : List Node) : memberViolations (n :: ms) = memberViolations ms := by
            simp [memberViolations, own, hn]
          obtain ⟨before, after, rfl, hbefore, hc⟩ := exists_memberSite ((hcons ns).symm.trans h)
          exact ⟨n :: before, after, rfl, (hcons before).trans hbefore, hc⟩

mutual

/-- The first violation at or below the first node of a list. -/
theorem exists_siteIn {config : Config} {v : Violation} :
    ∀ {rest : List Violation} (n : Node) (after : List Node), violationsIn config n = v :: rest →
      ∃ s : Site, n :: after = s.plug v.node ∧ s.Clear config ∧
        s.breach? config v.node = some v.cause
  | _, namespaceBlock span name members, after, h => by
      obtain ⟨inner, hplug, hclear, hc⟩ := exists_site members h
      exact ⟨.inNamespace [] span name inner after, by rw [hplug]; rfl, ⟨rfl, hclear⟩, hc⟩
  | _, interface span header members, after, h => by
      -- an interface that is not bound comes before its members
      cases hb : header.binding config with
      | ok b =>
          have hheader : (interface span header members).breach? config = none :=
            Interface.baseBreach?_eq_none hb
          rw [violationsIn, hheader] at h
          obtain ⟨before, behind, hmembers, hbefore, hc⟩ := exists_memberSite h
          exact ⟨.inInterface [] span header b before behind after, by rw [hmembers]; rfl,
            ⟨rfl, hb, hbefore⟩, hc⟩
      | error c =>
          have hheader : (interface span header members).breach? config = some c :=
            (header.binding_eq_error_iff config c).mp hb
          rw [violationsIn, hheader] at h
          obtain ⟨rfl, -⟩ := List.cons_eq_cons.mp h
          exact ⟨.among [] after, rfl, rfl, hheader⟩
  | _, usingDirective _, _, h => by simp [violationsIn, own, breach?] at h
  | _, method .., after, h | _, property .., after, h | _, other .., after, h
  | _, error .., after, h | _, missing .., after, h => by
      simp only [violationsIn, own, breach?] at h
      obtain ⟨rfl, -⟩ := List.cons_eq_cons.mp h
      exact ⟨.among [] after, rfl, rfl, rfl⟩

/-- **The first violation of a list stands at a clear site of it.** -/
theorem exists_site {config : Config} {v : Violation} :
    ∀ {rest : List Violation} (ns : List Node), violations config ns = v :: rest →
      ∃ s : Site, ns = s.plug v.node ∧ s.Clear config ∧ s.breach? config v.node = some v.cause
  | _, [], h => by simp [violations] at h
  | _, n :: ns, h => by
      cases hn : violationsIn config n with
      | cons w ws =>
          rw [violations, hn] at h
          obtain ⟨rfl, -⟩ := List.cons_eq_cons.mp h
          exact exists_siteIn n ns hn
      | nil =>
          rw [violations, hn] at h
          obtain ⟨s, rfl, hclear, hc⟩ := exists_site ns h
          exact ⟨s.behind n, (s.plug_behind n v.node).symm, Site.clear_behind hn hclear,
            (s.breach?_behind config n v.node).trans hc⟩

end

end Node

end InteropStubs
