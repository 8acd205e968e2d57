import InteropStubs.Proofs.Stub.Layout

/-!
# The tape of an emitter

What can be seen of an emitter is its `Tape`: the text so far, whether a line is begun, and the depth. An
emitter is moved in four ways, and each of them does to the tape what the same move does to a tape alone
(`Emitter.tape_move?`), so an emitter and its tape go on alike whatever is done to them. A tape is only ever
written behind, and what is written does not depend on the text that is there (`Tape.move?_behind`).

* `Emit.Performs`: a program that makes the same moves on every emitter.
* `Emitter.perform_behind`: what moves make of the text, the depth and the begun line.
-/

namespace InteropStubs

/-- What can be done to an emitter. -/
inductive Move where
  | line (text : String)
  | write (text : String)
  | indent
  | dedent
deriving DecidableEq, Repr

/-- Make moves one after the other, and then end in the given way. A step back at depth zero stops them. -/
def Move.perform {σ : Type} (move? : Move → σ → Option σ) (moves : List Move) (ending : Except Stop Unit)
    (s : σ) : Except Stop Unit × σ :=
  match moves with
  | [] => (ending, s)
  | m :: moves =>
    match move? m s with
    | some next => perform move? moves ending next
    | none => (.error .unmatchedDedent, s)

/-! ### Tapes -/

/-- A text that is written from front to back. -/
structure Tape where
  text : String
  /-- Whether the last line is begun and not ended. Nothing may stand in it yet. -/
  isBegun : Bool
  /-- How many steps a fresh line is indented. -/
  depth : Nat
deriving DecidableEq, Repr

namespace Tape

/-- The text in front of a fresh line. -/
def indentation (unit : String) (t : Tape) : String :=
  String.join (List.replicate t.depth unit)

/-- Go on with the line that is begun, or begin one with the indentation. -/
def write (unit text : String) (t : Tape) : Tape :=
  { t with text := t.text ++ ((if t.isBegun then "" else t.indentation unit) ++ text), isBegun := true }

/-- End a line. A fresh line is indented unless it is empty. -/
def line (unit text : String) (t : Tape) : Tape :=
  { t with
    text := t.text ++ ((if t.isBegun || text.isEmpty then "" else t.indentation unit) ++ text ++ "\n")
    isBegun := false }

/-- Make a move, if it can be made. -/
def move? (unit : String) : Move → Tape → Option Tape
  | .line text, t => some (t.line unit text)
  | .write text, t => some (t.write unit text)
  | .indent, t => some { t with depth := t.depth + 1 }
  | .dedent, t => if t.depth = 0 then none else some { t with depth := t.depth - 1 }

/-- Make moves one after the other. -/
def perform (unit : String) : List Move → Except Stop Unit → Tape → Except Stop Unit × Tape :=
  Move.perform (move? unit)

/-- A tape with a text in front. -/
def behind (front : String) (t : Tape) : Tape :=
  { t with text := front ++ t.text }

variable {unit front : String}

/-- **What is written does not depend on what is there.** -/
theorem move?_behind (unit front : String) (m : Move) (t : Tape) :
    move? unit m (t.behind front) = (move? unit m t).map (behind front) := by
  cases m with
  | line text => simp [move?, line, behind, indentation, String.append_assoc]
  | write text => cases h : t.isBegun <;> simp [move?, write, behind, indentation, h, String.append_assoc]
  | indent => rfl
  | dedent =>
      by_cases h : t.depth = 0
      · simp [move?, behind, h]
      · simp [move?, behind, h]

/-- What moves write does not depend on what is there. -/
theorem perform_behind (unit front : String) (moves : List Move) (ending : Except Stop Unit) (t : Tape) :
    perform unit moves ending (t.behind front) =
      ((perform unit moves ending t).1, (perform unit moves ending t).2.behind front) := by
  induction moves generalizing t with
  | nil => rfl
  | cons m moves ih =>
      simp only [perform, Move.perform, move?_behind]
      cases move? unit m t with
      | none => rfl
      | some next => exact ih next

/-- A tape is an empty one behind its text. -/
theorem behind_text (t : Tape) : behind t.text ⟨"", t.isBegun, t.depth⟩ = t := by
  simp [behind]

end Tape

/-! ### Emitters -/

namespace Emitter

/-- What can be seen of an emitter. -/
def tape (e : Emitter) : Tape :=
  ⟨e.output, e.pending.isSome, e.depth⟩

/-- Make a move, if it can be made. -/
def move? : Move → Emitter → Option Emitter
  | .line text, e => some (e.line text)
  | .write text, e => some (e.write text)
  | .indent, e => some e.indent
  | .dedent, e => e.dedent?

/-- Make moves one after the other. -/
def perform : List Move → Except Stop Unit → Emitter → Except Stop Unit × Emitter :=
  Move.perform move?

variable {e : Emitter}

/-- A line of an emitter is one of its tape. -/
theorem tape_line (text : String) (e : Emitter) : (e.line text).tape = e.tape.line e.unit text := by
  cases hp : e.pending with
  | some fragment => simp [tape, line, output, hp, Tape.line, String.append_assoc]
  | none =>
      by_cases h : text = ""
      · simp [tape, line, output, hp, Tape.line, h, String.append_assoc]
      · simp [tape, line, output, hp, Tape.line, h, indentation, Tape.indentation, String.append_assoc]

/-- A fragment of an emitter is one of its tape. -/
theorem tape_write (text : String) (e : Emitter) : (e.write text).tape = e.tape.write e.unit text := by
  cases hp : e.pending <;>
    simp [tape, write, output, hp, Tape.write, indentation, Tape.indentation, String.append_assoc]

/-- **An emitter and its tape go on alike.** -/
theorem tape_move? (m : Move) (e : Emitter) : (move? m e).map tape = Tape.move? e.unit m e.tape := by
  cases m with
  | line text => exact congrArg some (tape_line text e)
  | write text => exact congrArg some (tape_write text e)
  | indent => rfl
  | dedent => rcases e with ⟨unit, lines, pending, _ | depth⟩ <;> rfl

/-- No move changes the unit of indentation. -/
theorem unit_of_move? {m : Move} {next : Emitter} (h : move? m e = some next) : next.unit = e.unit := by
  cases m with
  | line text =>
      obtain rfl := Option.some.inj h
      cases hp : e.pending <;> simp [line, hp]
  | write text | indent =>
      obtain rfl := Option.some.inj h
      rfl
  | dedent =>
      rcases e with ⟨unit, lines, pending, _ | depth⟩
      · exact absurd h.symm (Option.some_ne_none next)
      · obtain rfl := Option.some.inj h
        rfl

/-- **Moves** end alike on an emitter and on its tape, and the tape that is left is that of the emitter that is
left. -/
theorem perform_tape (moves : List Move) (ending : Except Stop Unit) (e : Emitter) :
    ((perform moves ending e).1, (perform moves ending e).2.tape) = e.tape.perform e.unit moves ending := by
  induction moves generalizing e with
  | nil => rfl
  | cons m moves ih =>
      simp only [perform, Tape.perform, Move.perform, ← tape_move?]
      cases h : move? m e with
      | none => rfl
      | some next =>
          rw [← unit_of_move? h]
          exact ih next

/-- **What moves add** is what they write on an empty tape of the same depth, with a line begun or not. -/
theorem perform_behind (moves : List Move) (ending : Except Stop Unit) (e : Emitter) :
    let alone := (⟨"", e.pending.isSome, e.depth⟩ : Tape).perform e.unit moves ending
    (perform moves ending e).1 = alone.1 ∧ (perform moves ending e).2.tape = alone.2.behind e.output := by
  intro alone
  have htape := perform_tape moves ending e
  rw [← Tape.behind_text e.tape, Tape.perform_behind] at htape
  exact Prod.mk.inj htape

theorem unit_perform (moves : List Move) (ending : Except Stop Unit) (e : Emitter) :
    (perform moves ending e).2.unit = e.unit := by
  induction moves generalizing e with
  | nil => rfl
  | cons m moves ih =>
      simp only [perform, Move.perform]
      cases h : move? m e with
      | none => rfl
      | some next => exact (ih next).trans (unit_of_move? h)

end Emitter

/-! ### Layouts as moves -/

namespace Line

/-- The moves that write a line at its depth. -/
def movesOf (l : Line) : List Move :=
  List.replicate l.depth .indent ++ .line l.text :: List.replicate l.depth .dedent

/-- The moves that lay down a layout. -/
def moves (ls : List Line) : List Move :=
  ls.flatMap movesOf

end Line

namespace Emitter

variable {moves : List Move} {ending : Except Stop Unit}

theorem perform_indents (k : Nat) (e : Emitter) :
    perform (List.replicate k .indent ++ moves) ending e = perform moves ending { e with depth := e.depth + k } := by
  induction k generalizing e with
  | zero => rfl
  | succ k ih =>
      rw [Nat.add_comm k 1, ← Nat.add_assoc, Nat.add_comm 1 k]
      exact ih e.indent

theorem perform_dedents (k depth : Nat) (e : Emitter) :
    perform (List.replicate k .dedent ++ moves) ending { e with depth := depth + k } =
      perform moves ending { e with depth } := by
  induction k with
  | zero => rfl
  | succ k ih => exact ih

/-- The moves of a line put it down. -/
theorem perform_movesOf (l : Line) (e : Emitter) :
    perform (l.movesOf ++ moves) ending e = perform moves ending (e.put l) := by
  have hdepth (text : String) (e : Emitter) : { e.line text with depth := e.depth } = e.line text := by
    cases hp : e.pending <;> simp [line, hp]
  rw [Line.movesOf, List.append_assoc, perform_indents, put]
  exact (congrArg (perform _ ending) (hdepth l.text _).symm).trans (perform_dedents l.depth e.depth _)

/-- **The moves of a layout lay it down.** -/
theorem perform_moves (ls : List Line) (e : Emitter) :
    perform (Line.moves ls) ending e = (ending, e.lay ls) := by
  induction ls generalizing e with
  | nil => rfl
  | cons l ls ih => exact (perform_movesOf l e).trans (ih (e.put l))

end Emitter

/-! ### Programs -/

namespace Emit

/-- A program makes the same moves on every emitter and ends in the same way. -/
def Performs (p : Emit Unit) (moves : List Move) (ending : Except Stop Unit) : Prop :=
  ∀ e : Emitter, p.runOn e = e.perform moves ending

variable {p : Emit Unit} {moves : List Move} {ending : Except Stop Unit} {ls : List Line}

/-- What lays down a layout makes the moves of its lines. -/
theorem Prints.performs (h : Prints p ending ls) : Performs p (Line.moves ls) ending := fun e =>
  (h e).trans (Emitter.perform_moves ls e).symm

theorem performs_write (text : String) : Performs (write text) [.write text] (.ok ()) := fun _ => rfl

theorem performs_indent : Performs indent [.indent] (.ok ()) := fun _ => rfl

theorem performs_dedent : Performs dedent [.dedent] (.ok ()) := fun e => by
  rw [runOn_dedent, Emitter.perform, Move.perform, Emitter.move?]
  cases e.dedent? <;> rfl

theorem performs_openBlock (header opener : String) :
    Performs (openBlock header opener) [.line header, .line opener, .indent] (.ok ()) := fun _ => rfl

/-- A block that cannot be ended gets no last line. -/
theorem performs_closeBlock (footer : String) :
    Performs (closeBlock footer) [.dedent, .line footer] (.ok ()) := fun e => by
  rw [closeBlock, runOn_bind, runOn_dedent, Emitter.perform, Move.perform, Emitter.move?]
  cases e.dedent? <;> rfl

end Emit

end InteropStubs
