import InteropStubs.Emitter.Basic

/-!
# Runs of emitter programs

A run of an emitter program, computed along the ways in which programs are put together: what
`Emit.runOn` makes of a basic move, of a sequence, of a stop and of a body whose outcome is handed
over. A sequence goes on only where its first part ended well; the outcome of a body is handed over
with whatever emitter the body left, which is what lets a block be closed after a stop.
-/

namespace InteropStubs

namespace Emit

/-! ### Basic moves -/

@[simp] theorem runOn_pure (e : Emitter) : runOn (pure ()) e = (.ok (), e) := rfl

@[simp] theorem runOn_line (text : String) (e : Emitter) :
    runOn (line text) e = (.ok (), e.line text) := rfl

@[simp] theorem runOn_write (text : String) (e : Emitter) :
    runOn (write text) e = (.ok (), e.write text) := rfl

@[simp] theorem runOn_indent (e : Emitter) : runOn indent e = (.ok (), e.indent) := rfl

/-- A step back, if there is one. -/
theorem runOn_dedent (e : Emitter) :
    runOn dedent e =
      match e.dedent? with
      | some next => (.ok (), next)
      | none => (.error .unmatchedDedent, e) := by
  unfold Emitter.dedent?
  rcases e with ⟨unit, lines, pending, _ | depth⟩ <;> rfl

/-- A step back undoes a step forward. -/
@[simp] theorem runOn_dedent_indent (e : Emitter) : runOn dedent e.indent = (.ok (), e) := rfl

/-! ### Sequences and outcomes -/

/-- The second part of a sequence runs on what the first one left, unless that one stopped. -/
@[simp] theorem runOn_bind (p : Emit Unit) (k : Unit → Emit Unit) (e : Emitter) :
    runOn (p >>= k) e =
      match runOn p e with
      | (.ok (), next) => runOn (k ()) next
      | (.error stop, next) => (.error stop, next) := by
  simp only [runOn, ExceptT.run_bind, StateT.run_bind]
  rcases (ExceptT.run p).run e with ⟨result, next⟩
  cases result <;> rfl

/-- However a body ends, what follows is given its outcome and runs on what it left. -/
@[simp] theorem runOn_outcome_bind (p : Emit Unit) (k : Except Stop Unit → Emit Unit)
    (e : Emitter) :
    runOn (outcome p >>= k) e = runOn (k (runOn p e).1) (runOn p e).2 := rfl

@[simp] theorem runOn_ofExcept (result : Except Stop Unit) (e : Emitter) :
    runOn (ofExcept result) e = (result, e) := by
  cases result <;> rfl

end Emit

/-! ### Fragments -/

namespace Emitter

/-- Two fragments in a row are one. -/
theorem write_write (a b : String) (e : Emitter) : (e.write a).write b = e.write (a ++ b) := by
  simp [write, String.append_assoc]

/-- A fragment and the text that completes its line are one line, unless nothing is written. -/
theorem line_write {a b : String} (h : a ++ b ≠ "") (e : Emitter) :
    (e.write a).line b = e.line (a ++ b) := by
  cases hp : e.pending with
  | none => simp [write, line, indentation, hp, h, String.append_assoc]
  | some fragment => simp [write, line, hp, String.append_assoc]

end Emitter

/-- Fragments written behind a fragment make it longer. -/
theorem Emit.runOn_forM_write {α : Type} (f : α → String) (xs : List α) (text : String)
    (e : Emitter) :
    runOn (forM xs fun x => write (f x)) (e.write text) =
      (.ok (), e.write (text ++ String.join (xs.map f))) := by
  induction xs generalizing text with
  | nil => simp
  | cons x xs ih =>
      simp only [List.forM_cons, runOn_bind, runOn_write, Emitter.write_write, ih,
        List.map_cons, String.join_cons, String.append_assoc]

end InteropStubs
