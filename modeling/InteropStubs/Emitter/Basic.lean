import InteropStubs.Diagnostic
import InteropStubs.Text.Braces

/-!
# The emitter

An `Emitter` collects finished lines, at most one pending fragment and a depth. The three basic
moves are `line`, `write` and the pair `indent` and `dedent?`. A line that starts fresh is
indented unless it is empty; a line that completes a fragment takes the fragment as it is.

`Emit` is the monad of programs that write through an emitter and may fail. A failure keeps what
was written, and `Emit.block` closes its block whether its body fails or not.
-/

namespace InteropStubs

/-- An indenting buffer of lines. -/
structure Emitter where
  /-- One step of indentation. -/
  unit : String
  /-- The finished lines, oldest first. -/
  lines : Array String := #[]
  /-- A line that is begun and not ended. -/
  pending : Option String := none
  /-- How many steps a fresh line is indented. -/
  depth : Nat := 0
deriving DecidableEq, Repr

namespace Emitter

/-- The text in front of a fresh line. -/
def indentation (e : Emitter) : String :=
  String.join (List.replicate e.depth e.unit)

/-- End a line: the pending fragment and `text`, or `text` indented, or an empty line. -/
def line (text : String) (e : Emitter) : Emitter :=
  match e.pending with
  | some fragment => { e with lines := e.lines.push (fragment ++ text), pending := none }
  | none =>
    { e with lines := e.lines.push (if text.isEmpty then "" else e.indentation ++ text) }

/-- Add to the pending fragment, beginning one with the indentation if there is none. -/
def write (text : String) (e : Emitter) : Emitter :=
  { e with pending := some (e.pending.getD e.indentation ++ text) }

/-- One step deeper. -/
def indent (e : Emitter) : Emitter :=
  { e with depth := e.depth + 1 }

/-- One step back, if there is one. -/
def dedent? (e : Emitter) : Option Emitter :=
  match e.depth with
  | 0 => none
  | depth + 1 => some { e with depth }

/-- All that was written, the pending fragment last. -/
def output (e : Emitter) : String :=
  e.lines.foldl (fun text line => text ++ line ++ "\n") "" ++ e.pending.getD ""

end Emitter

/-- Why writing stops. -/
inductive Stop where
  /-- A step back at depth zero. -/
  | unmatchedDedent
  /-- What was to be written cannot be. -/
  | refused (diagnostic : Diagnostic)
deriving DecidableEq, Repr

/-- The wording of a stop. -/
def Stop.text : Stop → String
  | unmatchedDedent => "dedent() called without a matching indent()"
  | refused diagnostic => diagnostic.message

/-- Programs that write through an emitter. -/
abbrev Emit := ExceptT Stop (StateM Emitter)

namespace Emit

/-- Run a program: how it ended, and what the emitter is then. -/
def runOn (p : Emit Unit) (e : Emitter) : Except Stop Unit × Emitter :=
  (ExceptT.run p).run e

/-- `Emitter.line` as a program. -/
def line (text : String) : Emit Unit :=
  modify (Emitter.line text)

/-- `Emitter.write` as a program. -/
def write (text : String) : Emit Unit :=
  modify (Emitter.write text)

/-- Several lines. -/
def lines (texts : List String) : Emit Unit :=
  texts.forM line

/-- `Emitter.indent` as a program. -/
def indent : Emit Unit :=
  modify Emitter.indent

/-- One step back; at depth zero nothing changes and the program stops. -/
def dedent : Emit Unit := do
  match (← get).dedent? with
  | some e => set e
  | none => throw .unmatchedDedent

/-- Begin a block: its header, its opening line, one step deeper. -/
def openBlock (header opener : String) : Emit Unit := do
  line header
  line opener
  indent

/-- End a block: one step back, then its last line. -/
def closeBlock (footer : String) : Emit Unit := do
  dedent
  line footer

/-- Run `p` and hand over how it ended instead of stopping with it. -/
def outcome (p : Emit Unit) : Emit (Except Stop Unit) :=
  ExceptT.lift (ExceptT.run p)

/-- A braced block. If the body stops, the block is closed first. -/
def block (header : String) (body : Emit Unit) : Emit Unit := do
  openBlock header openBrace
  let result ← outcome body
  closeBlock closeBrace
  ofExcept result

end Emit

end InteropStubs
