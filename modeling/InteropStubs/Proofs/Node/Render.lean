import InteropStubs.Proofs.Node.Violation
import InteropStubs.Proofs.Stub.Layout

/-!
# Rendering

`Node.render` says what is generated for a list of nodes as a list of lines, and touches no
emitter. It passes over nodes that no stub can be made of. Generation stops at the first of them
(`Node.emit_prints_of_breach?`, `Node.emitMember_prints_of_memberBreach?`).
-/

namespace InteropStubs.Node

open Emit

/-! ### The renderer -/

/-- The layout of an interface member. -/
def memberLayout (config : Config) (isStatic : Bool) : Node → List Line
  | method _ m => m.layout isStatic
  | property _ p => p.layout config isStatic
  | _ => []

/-- The layout of an interface member after member. -/
def membersLayout (config : Config) (isStatic : Bool) (members : List Node) : List Line :=
  members.flatMap (memberLayout config isStatic)

mutual

/-- The rendering of a node of a file or namespace. -/
def renderNode (config : Config) : Node → List Line
  | namespaceBlock _ name members => Line.nested ["namespace " ++ name] (render config members)
  | usingDirective span => [⟨0, span.text⟩]
  | interface _ header members =>
    match header.binding config with
    | .ok b =>
      b.layout config header.name (membersLayout config b.isStatic members) ++ [Line.blank]
    | .error _ => []
  | _ => []

/-- The rendering of a list of nodes. -/
def render (config : Config) : List Node → List Line
  | [] => []
  | n :: ns => renderNode config n ++ render config ns

end

theorem render_append (config : Config) (ns ms : List Node) :
    render config (ns ++ ms) = render config ns ++ render config ms := by
  induction ns with
  | nil => rfl
  | cons n ns ih => simp only [List.cons_append, render, ih, List.append_assoc]

/-! ### What nodes print -/

variable {config : Config} {locate : Nat → Location}

theorem emitAll_append (ns ms : List Node) :
    emitAll config locate (ns ++ ms) =
      emitAll config locate ns >>= fun _ => emitAll config locate ms := by
  induction ns with
  | nil => simp [emitAll]
  | cons n ns ih => simp [emitAll, ih]

/-- An interface that is bound prints its class, which ends as its members do. -/
theorem emitInterface_prints {header : Interface} {b : Binding} {members : List Node}
    {result : Except Stop Unit} {ls : List Line} (n : Node) (hb : header.binding config = .ok b)
    (hm : Prints (members.forM (emitMember config locate b.isStatic)) result ls) :
    Prints (emitInterface config locate n header members) result
      (b.layout config header.name ls ++ if result.isOk then [Line.blank] else []) := by
  rw [emitInterface, hb]
  cases b with
  | globalObject => exact header.emitGlobalObject_prints config hm
  | objectWrapper => exact header.emitObjectWrapper_prints config hm

/-! ### What stops -/

/-- A violating node stops generation at once and prints nothing. -/
theorem emit_prints_of_breach? {n : Node} {c : Cause} (h : n.breach? config = some c) :
    Prints (emit config locate n) (.error (.refused (c.at (locate n.span.start)))) [] := by
  cases n with
  | namespaceBlock | usingDirective => simp [breach?] at h
  | interface span header members =>
      rw [emit, emitInterface, (header.binding_eq_error_iff config c).mpr h]
      exact Prints.throw _
  | method | property | other | error | missing =>
      obtain rfl := Option.some.inj h
      exact Prints.throw _

/-- A violating member stops generation at once and prints nothing. -/
theorem emitMember_prints_of_memberBreach? (isStatic : Bool) {n : Node} {c : Cause}
    (h : n.memberBreach? = some c) :
    Prints (emitMember config locate isStatic n)
      (.error (.refused (c.at (locate n.span.start)))) [] := by
  cases n with
  | method | property => simp [memberBreach?] at h
  | namespaceBlock | usingDirective | interface | other | error | missing =>
      obtain rfl := Option.some.inj h
      exact Prints.throw _

end InteropStubs.Node
