import InteropStubs.Stub.Class

/-!
# Scripts

A `Step` is one thing that can be done to an emitter from outside, and a `Machine` runs steps one
after the other. Blocks may be left open between steps, and they may be ended in any order; the machine
keeps the last lines of those that are open. A step that stops leaves what it wrote, and the machine
goes on with the next one.
-/

namespace InteropStubs

/-- One step of a script. -/
inductive Step where
  | line (text : String)
  | lines (texts : List String)
  | write (text : String)
  | indent
  | dedent
  /-- Begin a block and remember its last line. -/
  | openBlock (header opener footer : String)
  /-- End an open block, counted back from the one begun last; nothing happens if there is none. -/
  | closeBlock (which : Nat := 0)
  | method (signature : Method) (isStatic : Bool)
  | property (signature : Property) (isStatic : Bool)
  /-- The class of a global object without members. -/
  | globalObject (name : String)
  /-- The class of a wrapped object without members. -/
  | objectWrapper (name : String)
deriving DecidableEq, Repr

/-- An emitter together with the last lines of the blocks that are open, innermost first. -/
structure Machine where
  emitter : Emitter
  footers : List String := []
deriving DecidableEq, Repr

namespace Machine

/-- A machine that has written nothing. -/
def start (config : Config) : Machine :=
  { emitter := { unit := config.indent } }

/-- Run a program on the machine's emitter. -/
def run (m : Machine) (p : Emit Unit) : Except Stop Unit × Machine :=
  let (result, emitter) := p.runOn m.emitter
  (result, { m with emitter })

/-- Do one step. -/
def step (config : Config) (m : Machine) : Step → Except Stop Unit × Machine
  | .line text => m.run (Emit.line text)
  | .lines texts => m.run (Emit.lines texts)
  | .write text => m.run (Emit.write text)
  | .indent => m.run Emit.indent
  | .dedent => m.run Emit.dedent
  | .openBlock header opener footer =>
    { m with footers := footer :: m.footers }.run (Emit.openBlock header opener)
  | .closeBlock which =>
    match m.footers[which]? with
    | none => (.ok (), m)
    | some footer =>
      { m with footers := m.footers.eraseIdx which }.run (Emit.closeBlock footer)
  | .method signature isStatic => m.run (signature.emit isStatic)
  | .property signature isStatic => m.run (signature.emit config isStatic)
  | .globalObject name =>
    m.run ((⟨name, none⟩ : Interface).emitGlobalObject config (pure ()))
  | .objectWrapper name =>
    m.run ((⟨name, none⟩ : Interface).emitObjectWrapper config (pure ()))

/-- Do the steps of a script and keep how each ended and the machine after it. -/
def trace (config : Config) (m : Machine) : List Step → List (Except Stop Unit × Machine)
  | [] => []
  | s :: steps =>
    let (result, next) := m.step config s
    (result, next) :: next.trace config steps

end Machine

end InteropStubs
