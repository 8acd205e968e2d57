import InteropStubs.Emitter.Script
import InteropStubs.Proofs.Emitter.Tape
import InteropStubs.Proofs.Node.Printout

/-!
# What is appended

An `Action` is a step of a script, the class of an interface with its members, or a walk over declarations. Its
moves (`Action.moves`) and its ending (`Action.ending`) are read off the action, the configuration and the blocks
that are open, and on every emitter it makes these moves and ends so (`Machine.act_performs`).

A `Reel` is the machine with all that cannot be seen left out: a tape and the last lines of the open blocks. To
write a fragment is one move of it, and so is to write a line. A machine and its reel go on alike over every run
(`Machine.reel_acts`). So nothing that was written is taken back, and what is added depends on the depth and on
whether a line is begun, not on what was written (`Machine.append_local`).
-/

namespace InteropStubs

open Emit

/-- One thing that is done to an emitter. -/
inductive Action where
  | step (s : Step)
  /-- The class of an interface with stubs of its members. -/
  | classOf (b : Binding) (header : Interface) (members : List Node)
  /-- All that is generated for some declarations. -/
  | walk (nodes : List Node)

/-! ### Moves -/

/-- The moves of a step where blocks with the given last lines are open. -/
def Step.moves (config : Config) (footers : List String) : Step → List Move
  | .line text => [.line text]
  | .lines texts => texts.map .line
  | .write text => [.write text]
  | .indent => [.indent]
  | .dedent => [.dedent]
  | .openBlock header opener _ => [.line header, .line opener, .indent]
  | .closeBlock which =>
    match footers[which]? with
    | some footer => [.dedent, .line footer]
    | none => []
  | .method signature isStatic => Line.moves (signature.layout isStatic)
  | .property signature isStatic => Line.moves (signature.layout config isStatic)
  | .globalObject name => Line.moves (Binding.globalObject.layout config name [] ++ [Line.blank])
  | .objectWrapper name => Line.moves (Binding.objectWrapper.layout config name [] ++ [Line.blank])

namespace Action

variable (config : Config) (locate : Nat → Location)

/-- The moves of an action where blocks with the given last lines are open. -/
def moves (footers : List String) : Action → List Move
  | .step s => s.moves config footers
  | .classOf b header members =>
    Line.moves ((Node.membersPrintout config locate b.isStatic members).inClass b config header.name).lines
  | .walk nodes => Line.moves (Node.printout config locate nodes).lines

/-- How an action ends if all its moves can be made. -/
def ending : Action → Except Stop Unit
  | .step _ => .ok ()
  | .classOf b _ members => (Node.membersPrintout config locate b.isStatic members).ending
  | .walk nodes => (Node.printout config locate nodes).ending

/-- The last lines of open blocks behind an action. -/
def footersBehind (footers : List String) : Action → List String
  | .step (.openBlock _ _ footer) => footer :: footers
  | .step (.closeBlock which) => footers.eraseIdx which
  | _ => footers

end Action

/-! ### Reels -/

/-- A tape together with the last lines of the blocks that are open, innermost first. -/
structure Reel where
  tape : Tape
  footers : List String
deriving DecidableEq, Repr

namespace Reel

variable (config : Config) (locate : Nat → Location) (unit : String)

/-- Make the moves of an action on a tape. -/
def act (r : Reel) (a : Action) : Except Stop Unit × Reel :=
  let (result, tape) := r.tape.perform unit (a.moves config locate r.footers) (a.ending config locate)
  (result, ⟨tape, a.footersBehind r.footers⟩)

/-- Do several things one after the other: how each ended, and the reel behind them. -/
def acts (r : Reel) : List Action → List (Except Stop Unit) × Reel
  | [] => ([], r)
  | a :: actions =>
    let (results, last) := acts (r.act config locate unit a).2 actions
    ((r.act config locate unit a).1 :: results, last)

end Reel

namespace Machine

variable (config : Config) (locate : Nat → Location)

/-- Do one thing to the emitter of a machine. -/
def act (m : Machine) : Action → Except Stop Unit × Machine
  | .step s => m.step config s
  | .classOf b header members => m.run (Node.emitClass config locate b header members)
  | .walk nodes => m.run (Node.emitAll config locate nodes)

/-- Do several things one after the other: how each ended, and the machine behind them. -/
def acts (m : Machine) : List Action → List (Except Stop Unit) × Machine
  | [] => ([], m)
  | a :: actions =>
    let (results, last) := acts (m.act config locate a).2 actions
    ((m.act config locate a).1 :: results, last)

/-- What can be seen of a machine. -/
def reel (m : Machine) : Reel :=
  ⟨m.emitter.tape, m.footers⟩

/-! ### What actions do -/

variable {config locate} in
/-- A program that performs moves does to a machine what the moves do to its emitter. -/
theorem run_of_performs {p : Emit Unit} {moves : List Move} {ending : Except Stop Unit}
    (h : Performs p moves ending) (m : Machine) :
    m.run p = ((m.emitter.perform moves ending).1, ⟨(m.emitter.perform moves ending).2, m.footers⟩) := by
  rw [run, h m.emitter]

/-- Lines at no depth are one move each. -/
theorem moves_texts (texts : List String) : Line.moves (texts.map fun text => ⟨0, text⟩) = texts.map .line := by
  induction texts with
  | nil => rfl
  | cons text texts ih => exact congrArg (Move.line text :: ·) ih

/-- **Every action makes its moves on all emitters**, and ends as it says. -/
theorem act_performs (m : Machine) (a : Action) :
    m.act config locate a =
      ((m.emitter.perform (a.moves config locate m.footers) (a.ending config locate)).1,
        ⟨(m.emitter.perform (a.moves config locate m.footers) (a.ending config locate)).2,
          a.footersBehind m.footers⟩) := by
  cases a with
  | classOf b header members =>
      exact run_of_performs (Node.emitClass_prints_printout b header members).performs m
  | walk nodes => exact run_of_performs (Node.emitAll_prints_printout nodes).performs m
  | step s =>
      cases s with
      | line text => exact run_of_performs (Prints.line text).performs m
      | lines texts =>
          have h := (Prints.lines texts).performs
          rw [moves_texts] at h
          exact run_of_performs h m
      | write text => exact run_of_performs (performs_write text) m
      | indent => exact run_of_performs performs_indent m
      | dedent => exact run_of_performs performs_dedent m
      | openBlock header opener footer =>
          exact run_of_performs (performs_openBlock header opener) ⟨m.emitter, footer :: m.footers⟩
      | closeBlock which =>
          cases hfooter : m.footers[which]? with
          | some footer =>
              simp only [act, step, hfooter, Action.moves, Step.moves]
              exact run_of_performs (performs_closeBlock footer) ⟨m.emitter, m.footers.eraseIdx which⟩
          | none =>
              -- there is no such block, and so none is taken off
              simp only [act, step, hfooter, Action.moves, Step.moves, Action.footersBehind,
                List.eraseIdx_of_length_le (List.getElem?_eq_none_iff.mp hfooter)]
              rfl
      | method signature isStatic => exact run_of_performs (signature.emit_prints isStatic).performs m
      | property signature isStatic => exact run_of_performs (signature.emit_prints config isStatic).performs m
      | globalObject name =>
          exact run_of_performs (Interface.emitGlobalObject_prints ⟨name, none⟩ config .pure).performs m
      | objectWrapper name =>
          exact run_of_performs (Interface.emitObjectWrapper_prints ⟨name, none⟩ config .pure).performs m

theorem unit_act (m : Machine) (a : Action) : (m.act config locate a).2.emitter.unit = m.emitter.unit := by
  rw [act_performs]
  exact Emitter.unit_perform _ _ _

/-- **One action** does to what can be seen of a machine what it does to a reel alone. -/
theorem reel_act (m : Machine) (a : Action) :
    ((m.act config locate a).1, (m.act config locate a).2.reel) = m.reel.act config locate m.emitter.unit a := by
  have htape := m.emitter.perform_tape (a.moves config locate m.footers) (a.ending config locate)
  rw [act_performs, reel, reel, Reel.act, ← htape]

/-- **A run** does so, too. -/
theorem reel_acts (m : Machine) (actions : List Action) :
    ((m.acts config locate actions).1, (m.acts config locate actions).2.reel) =
      m.reel.acts config locate m.emitter.unit actions := by
  induction actions generalizing m with
  | nil => rfl
  | cons a actions ih =>
      have hrest := ih (m.act config locate a).2
      rw [unit_act] at hrest
      rw [Reel.acts, ← reel_act, ← hrest]
      rfl

/-- Two machines that differ at most in what they have written. -/
structure Alike (m m' : Machine) : Prop where
  footers : m.footers = m'.footers
  unit : m.emitter.unit = m'.emitter.unit
  depth : m.emitter.depth = m'.emitter.depth
  isBegun : m.emitter.pending.isSome = m'.emitter.pending.isSome

variable {m m' : Machine}

/-- **One action** ends alike on machines that differ only in what they have written, and adds the same text. -/
theorem Alike.act (h : Alike m m') (a : Action) :
    ∃ text, (m.act config locate a).1 = (m'.act config locate a).1 ∧
      (m.act config locate a).2.emitter.output = m.emitter.output ++ text ∧
      (m'.act config locate a).2.emitter.output = m'.emitter.output ++ text ∧
      Alike (m.act config locate a).2 (m'.act config locate a).2 := by
  rw [act_performs, act_performs, ← h.footers]
  -- both make the same moves, which are made on an empty tape first
  obtain ⟨hresult, htape⟩ := m.emitter.perform_behind (a.moves config locate m.footers) (a.ending config locate)
  obtain ⟨hresult', htape'⟩ := m'.emitter.perform_behind (a.moves config locate m.footers) (a.ending config locate)
  rw [← h.unit, ← h.depth, ← h.isBegun] at hresult' htape'
  exact ⟨_, hresult.trans hresult'.symm, congrArg Tape.text htape, congrArg Tape.text htape', rfl,
    by rw [Emitter.unit_perform, Emitter.unit_perform, h.unit],
    (congrArg Tape.depth htape).trans (congrArg Tape.depth htape').symm,
    (congrArg Tape.isBegun htape).trans (congrArg Tape.isBegun htape').symm⟩

/-- **A run** over actions. -/
theorem Alike.acts (h : Alike m m') (actions : List Action) :
    ∃ text, (m.acts config locate actions).1 = (m'.acts config locate actions).1 ∧
      (m.acts config locate actions).2.emitter.output = m.emitter.output ++ text ∧
      (m'.acts config locate actions).2.emitter.output = m'.emitter.output ++ text ∧
      Alike (m.acts config locate actions).2 (m'.acts config locate actions).2 := by
  induction actions generalizing m m' with
  | nil => exact ⟨"", rfl, String.append_empty.symm, String.append_empty.symm, h⟩
  | cons a actions ih =>
      obtain ⟨first, hresult, houtput, houtput', hnext⟩ := h.act config locate a
      obtain ⟨rest, hresults, hlast, hlast', halike⟩ := ih hnext
      refine ⟨first ++ rest, ?_, ?_, ?_, halike⟩
      · show _ :: _ = _ :: _
        rw [hresult, hresults]
      · exact hlast.trans (by rw [houtput, String.append_assoc])
      · exact hlast'.trans (by rw [houtput', String.append_assoc])

/-- **Writing is append-only and local.**  Over a run of any length every action ends on a machine as it does on its
reel, where `write` and `line` are single moves of a tape, and the reel that is left is that of the machine that is
left. Text is only added behind; and where two machines differ only in what they have written, all actions end
alike and the same text is added, with the same depth and the same line begun. -/
theorem append_local (config : Config) (locate : Nat → Location) :
    (∀ actions (m : Machine),
      ((m.acts config locate actions).1, (m.acts config locate actions).2.reel) =
        m.reel.acts config locate m.emitter.unit actions) ∧
    ∀ actions m m', Alike m m' → ∃ text,
      (m.acts config locate actions).1 = (m'.acts config locate actions).1 ∧
      (m.acts config locate actions).2.emitter.output = m.emitter.output ++ text ∧
      (m'.acts config locate actions).2.emitter.output = m'.emitter.output ++ text ∧
      Alike (m.acts config locate actions).2 (m'.acts config locate actions).2 :=
  ⟨fun actions m => reel_acts config locate m actions, fun actions _ _ h => h.acts config locate actions⟩

/-- A walk that stops in a namespace, and a line, behind a line that is begun: what they add is known from the
machine that has begun its line with nothing. -/
theorem append_local_begun :
    let actions : List Action :=
      [.walk [.namespaceBlock ⟨0, ""⟩ "N" [.other ⟨14, "enum E " ++ braced ""⟩ .enumType []]], .step (.line "b")]
    let m : Machine := ⟨{ unit := " ", pending := some "" }, []⟩
    let m' : Machine := ⟨{ unit := " ", lines := #["first"], pending := some "// " }, []⟩
    Alike m m' ∧
      (m'.acts {} (fun start => ⟨1, start⟩) actions).2.emitter.output =
        "\n".intercalate ["first", "// namespace N", openBrace, closeBrace, "b", ""] := by
  intro actions m m'
  have halike : Alike m m' := ⟨rfl, rfl, rfl, rfl⟩
  obtain ⟨text, -, houtput, houtput', -⟩ :=
    (append_local {} fun start => ⟨1, start⟩).2 actions m m' halike
  have hm : (m.acts {} (fun start => ⟨1, start⟩) actions).2.emitter.output =
      "\n".intercalate ["namespace N", openBrace, closeBrace, "b", ""] := by decide +kernel
  have htext : text = "\n".intercalate ["namespace N", openBrace, closeBrace, "b", ""] := by
    have hempty : m.emitter.output = "" := by decide +kernel
    rw [hm, hempty, String.empty_append] at houtput
    exact houtput.symm
  refine ⟨halike, ?_⟩
  rw [houtput', htext]
  decide +kernel

end Machine

end InteropStubs
