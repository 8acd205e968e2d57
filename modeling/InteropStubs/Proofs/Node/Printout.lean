import InteropStubs.Proofs.Node.Render

/-!
# Printouts

A `Printout` is what a program lays down together with how it ends. `Node.printout` reads the printout of a list
of nodes off the nodes alone, whatever is wrong with them: it breaks off where generation does, and the blocks
that are open there are closed in it. `Node.emitAll_prints_printout` says that generation prints it on every
emitter, so what is generated for declarations is a function of the declarations and of nothing else.

`Node.render` passes over a violation, and a printout ends there. Where there is none the two are the same
(`Node.printout_of_violations`), so nodes without violations print their rendering (`Node.emitAll_prints`).
-/

namespace InteropStubs

open Emit

/-- The lines that a program lays down, and how it ends. -/
structure Printout where
  lines : List Line
  ending : Except Stop Unit

namespace Printout

/-- The printout of one program and, if it ends well, of another behind it. -/
def andThen (p q : Printout) : Printout :=
  match p.ending with
  | .ok _ => ⟨p.lines ++ q.lines, q.ending⟩
  | .error _ => p

/-- A printout in a block, which is closed however it ends. -/
def inBlock (header : String) (p : Printout) : Printout :=
  ⟨Line.nested [header] p.lines, p.ending⟩

/-- The printout of the class `name` around its members. Only a class that is complete has an empty line behind
it. -/
def inClass (b : Binding) (config : Config) (name : String) (members : Printout) : Printout :=
  ⟨b.layout config name members.lines ++ (if members.ending.isOk then [Line.blank] else []), members.ending⟩

/-- Two programs one after the other print one printout and then the other. -/
theorem prints_andThen {p q : Emit Unit} {left right : Printout} (hp : Prints p left.ending left.lines)
    (hq : Prints q right.ending right.lines) :
    Prints (p >>= fun _ => q) (left.andThen right).ending (left.andThen right).lines := by
  obtain ⟨lines, ending⟩ := left
  cases ending with
  | ok _ => exact Prints.bind hp hq
  | error _ => exact Prints.stop hp _

end Printout

namespace Node

variable (config : Config) (locate : Nat → Location)

/-- The printout of a refusal: nothing is laid down. -/
def refusal (n : Node) (cause : Cause) : Printout :=
  ⟨[], .error (.refused (cause.at (locate n.span.start)))⟩

/-- The printout of an interface member. -/
def memberPrintout (isStatic : Bool) : Node → Printout
  | method _ signature => ⟨signature.layout isStatic, .ok ()⟩
  | property _ signature => ⟨signature.layout config isStatic, .ok ()⟩
  | n => n.refusal locate (.unexpectedMember n.span.text)

/-- The printout of an interface member after member. -/
def membersPrintout (isStatic : Bool) : List Node → Printout
  | [] => ⟨[], .ok ()⟩
  | n :: members => (n.memberPrintout config locate isStatic).andThen (membersPrintout isStatic members)

mutual

/-- The printout of a node of a file or namespace. -/
def nodePrintout : Node → Printout
  | namespaceBlock _ name members => (printout members).inBlock ("namespace " ++ name)
  | usingDirective span => ⟨[⟨0, span.text⟩], .ok ()⟩
  | n@(interface _ header members) =>
    match header.binding config with
    | .ok b => (membersPrintout config locate b.isStatic members).inClass b config header.name
    | .error cause => n.refusal locate cause
  | n => n.refusal locate (.unexpected n.typeName)

/-- The printout of a list of nodes. -/
def printout : List Node → Printout
  | [] => ⟨[], .ok ()⟩
  | n :: ns => (nodePrintout n).andThen (printout ns)

end

/-- The class of an interface with its members, where the binding is known. -/
def emitClass (b : Binding) (header : Interface) (members : List Node) : Emit Unit :=
  match b with
  | .globalObject => header.emitGlobalObject config (members.forM (emitMember config locate true))
  | .objectWrapper => header.emitObjectWrapper config (members.forM (emitMember config locate false))

/-! ### What is printed -/

variable {config locate}

theorem emitMember_prints_printout (isStatic : Bool) (n : Node) :
    Prints (emitMember config locate isStatic n) (n.memberPrintout config locate isStatic).ending
      (n.memberPrintout config locate isStatic).lines := by
  cases n with
  | method _ signature => exact signature.emit_prints isStatic
  | property _ signature => exact signature.emit_prints config isStatic
  | _ => exact Prints.throw _

/-- Members print their printouts, up to the first of them that is refused. -/
theorem members_prints_printout (isStatic : Bool) (members : List Node) :
    Prints (members.forM (emitMember config locate isStatic))
      (membersPrintout config locate isStatic members).ending
      (membersPrintout config locate isStatic members).lines := by
  induction members with
  | nil => exact .pure
  | cons n members ih => exact Printout.prints_andThen (emitMember_prints_printout isStatic n) ih

/-- A class prints the printout of its members, in its blocks. -/
theorem emitClass_prints_printout (b : Binding) (header : Interface) (members : List Node) :
    Prints (emitClass config locate b header members)
      ((membersPrintout config locate b.isStatic members).inClass b config header.name).ending
      ((membersPrintout config locate b.isStatic members).inClass b config header.name).lines := by
  cases b with
  | globalObject => exact header.emitGlobalObject_prints config (members_prints_printout true members)
  | objectWrapper => exact header.emitObjectWrapper_prints config (members_prints_printout false members)

mutual

theorem emit_prints_printout : ∀ n : Node,
    Prints (emit config locate n) (nodePrintout config locate n).ending (nodePrintout config locate n).lines
  | namespaceBlock _ name members => (emitAll_prints_printout members).block ("namespace " ++ name)
  | usingDirective span => Prints.line span.text
  | interface span header members => by
      cases hb : header.binding config with
      | ok b =>
          rw [emit, nodePrintout, hb]
          exact emitInterface_prints _ hb (members_prints_printout b.isStatic members)
      | error cause =>
          rw [emit, nodePrintout, emitInterface, hb]
          exact Prints.throw _
  | method .. | property .. | other .. | error .. | missing .. => Prints.throw _

/-- **Generation prints the printout of its nodes**, and ends as the printout does. -/
theorem emitAll_prints_printout : ∀ ns : List Node,
    Prints (emitAll config locate ns) (printout config locate ns).ending (printout config locate ns).lines
  | [] => Prints.pure
  | n :: ns => Printout.prints_andThen (emit_prints_printout n) (emitAll_prints_printout ns)

end

/-! ### Without violations -/

theorem membersPrintout_of_memberViolations (isStatic : Bool) {members : List Node}
    (h : memberViolations members = []) :
    membersPrintout config locate isStatic members = ⟨membersLayout config isStatic members, .ok ()⟩ := by
  induction members with
  | nil => rfl
  | cons n members ih =>
      obtain ⟨hn, hmembers⟩ := List.append_eq_nil_iff.mp h
      rw [membersPrintout, ih hmembers]
      cases n with
      | method | property => rfl
      | _ => simp [own, memberBreach?] at hn

mutual

theorem nodePrintout_of_violationsIn : ∀ n : Node, violationsIn config n = [] →
    nodePrintout config locate n = ⟨renderNode config n, .ok ()⟩
  | namespaceBlock _ name members, h => by
      rw [nodePrintout, printout_of_violations members h]
      rfl
  | usingDirective span, _ => rfl
  | interface span header members, h => by
      obtain ⟨b, hb, hmembers⟩ := exists_binding_of_violationsIn h
      rw [nodePrintout, renderNode, hb]
      show Printout.inClass b config header.name _ = _
      rw [membersPrintout_of_memberViolations b.isStatic hmembers]
      rfl
  | method .., h | property .., h | other .., h | error .., h | missing .., h => by
      simp [violationsIn, own, breach?] at h

/-- **Without violations** a printout is the rendering. -/
theorem printout_of_violations : ∀ ns : List Node, violations config ns = [] →
    printout config locate ns = ⟨render config ns, .ok ()⟩
  | [], _ => rfl
  | n :: ns, h => by
      obtain ⟨hn, hns⟩ := List.append_eq_nil_iff.mp h
      rw [printout, nodePrintout_of_violationsIn n hn, printout_of_violations ns hns]
      rfl

end

/-- Where nothing is wrong with the members, they print their layouts. -/
theorem members_prints (isStatic : Bool) {members : List Node} (h : memberViolations members = []) :
    Prints (members.forM (emitMember config locate isStatic)) (.ok ()) (membersLayout config isStatic members) := by
  have hprints : Prints (members.forM (emitMember config locate isStatic)) _ _ :=
    members_prints_printout isStatic members
  rwa [membersPrintout_of_memberViolations isStatic h] at hprints

/-- **Nodes without violations print their rendering.** -/
theorem emitAll_prints (ns : List Node) (h : violations config ns = []) :
    Prints (emitAll config locate ns) (.ok ()) (render config ns) := by
  have hprints : Prints (emitAll config locate ns) _ _ := emitAll_prints_printout ns
  rwa [printout_of_violations ns h] at hprints

end Node

end InteropStubs
