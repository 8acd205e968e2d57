import InteropStubs.Emitter.Script
import InteropStubs.Proofs.Stub.Layout
import Mathlib.Algebra.Ring.Int.Defs

/-!
# The depth of a script

The depth is a counter that does not go below zero: a step back at depth zero stops and changes nothing, and
the script goes on. So the depth behind a script is its balance, raised by what the balance was below zero at
its lowest, and that is also how many steps stopped (`Machine.depth_trace`). Blocks need not nest for that;
it is enough that each step that ends a block finds it open.

* `Machine.step_cases`: a step stops at depth zero, where it goes back, and ends well everywhere else.
* `Machine.depth_after_add_stops`: the depth and the number of stops from any depth on.
-/

namespace InteropStubs

/-! ### Balances -/

namespace Step

/-- By how much a step changes the depth, if it does not stop. -/
def change : Step → Int
  | indent | openBlock .. => 1
  | dedent | closeBlock _ => -1
  | line _ | lines _ | write _ | method .. | property .. | globalObject _ | objectWrapper _ => 0

/-- The steps forward of a script less its steps back. -/
def balance (steps : List Step) : Int :=
  (steps.map change).sum

/-- The lowest balance of a beginning of a script; that of no steps at all is zero. -/
def lowest (steps : List Step) : Int :=
  ((List.range (steps.length + 1)).map fun k => balance (steps.take k)).foldr min 0

/-- How many blocks are open behind a step. -/
def opens (opened : Nat) : Step → Nat
  | openBlock .. => opened + 1
  | closeBlock _ => opened - 1
  | _ => opened

/-- A step that ends a block finds it among those that are open. -/
def FindsOpen (opened : Nat) : Step → Prop
  | closeBlock which => which < opened
  | _ => True

/-- Every step of a script that ends a block finds it open, where a number of blocks is open in front of the
script. -/
def EndsOpen : (opened : Nat) → List Step → Prop
  | _, [] => True
  | opened, s :: steps => s.FindsOpen opened ∧ EndsOpen (s.opens opened) steps

variable {s : Step} {steps : List Step}

@[simp] theorem balance_nil : balance [] = 0 := rfl

@[simp] theorem balance_cons (s : Step) (steps : List Step) :
    balance (s :: steps) = s.change + balance steps := by
  simp [balance]

/-- The steps that go back. -/
theorem eq_of_change (h : s.change = -1) : s = dedent ∨ ∃ which, s = closeBlock which := by
  cases s with
  | dedent => exact .inl rfl
  | closeBlock which => exact .inr ⟨which, rfl⟩
  | indent | openBlock | line | lines | write | method | property | globalObject | objectWrapper =>
      exact absurd h (by simp [change])

theorem foldr_min_min (a b : Int) (ns : List Int) : ns.foldr min (min a b) = min a (ns.foldr min b) := by
  induction ns with
  | nil => rfl
  | cons n ns ih =>
      rw [List.foldr_cons, ih, List.foldr_cons]
      omega

theorem foldr_min_add (c : Int) (ns : List Int) : (ns.map (c + ·)).foldr min c = c + ns.foldr min 0 := by
  induction ns with
  | nil => simp
  | cons n ns ih =>
      rw [List.map_cons, List.foldr_cons, ih, List.foldr_cons]
      omega

@[simp] theorem lowest_nil : lowest [] = 0 := rfl

/-- The first step moves all balances behind it. -/
theorem lowest_cons (s : Step) (steps : List Step) :
    lowest (s :: steps) = min 0 (s.change + lowest steps) := by
  -- the balance behind the first step alone is its own change, so it may as well be the seed
  have hbehind : lowest (s :: steps) =
      min 0 (min s.change (((List.range steps.length).map fun k =>
        s.change + balance (steps.take (k + 1))).foldr min 0)) := by
    simp [lowest, List.range_succ_eq_map, Function.comp_def]
  have hseed : s.change + lowest steps =
      min s.change (((List.range steps.length).map fun k =>
        s.change + balance (steps.take (k + 1))).foldr min s.change) := by
    rw [lowest, ← foldr_min_add]
    simp [List.range_succ_eq_map, Function.comp_def]
  rw [hbehind, hseed, ← foldr_min_min s.change, ← foldr_min_min 0, ← foldr_min_min s.change, ← foldr_min_min 0]
  congr 1
  omega

/-- No lowest balance is above zero, since that of no steps is counted. -/
theorem lowest_le_zero (steps : List Step) : lowest steps ≤ 0 := by
  cases steps with
  | nil => exact Int.le_refl 0
  | cons s steps => rw [lowest_cons]; omega

end Step

/-! ### Steps -/

@[simp] theorem Emitter.depth_line (text : String) (e : Emitter) : (e.line text).depth = e.depth := by
  cases hp : e.pending <;> simp [line, hp]

namespace Machine

open Step

variable {config : Config} {m : Machine} {s : Step} {steps : List Step}

/-- A block that is found open has a last line. -/
theorem exists_footer {which : Nat} (hopen : (closeBlock which).FindsOpen m.footers.length) :
    ∃ footer, m.footers[which]? = some footer :=
  ⟨_, List.getElem?_eq_getElem hopen⟩

/-- A step that does not go back ends well. -/
theorem step_of_ne (config : Config) (m : Machine) (hs : s.change ≠ -1) :
    (m.step config s).1 = .ok () ∧ ((m.step config s).2.emitter.depth : Int) = m.emitter.depth + s.change := by
  have hprints {p : Emit Unit} {ls : List Line} (h : Emit.Prints p (.ok ()) ls) :
      (m.run p).1 = .ok () ∧ ((m.run p).2.emitter.depth : Int) = m.emitter.depth + 0 := by
    simp [run, h m.emitter]
  cases s with
  | line text => exact hprints (.line text)
  | lines texts => exact hprints (.lines texts)
  | write text => exact ⟨rfl, (Int.add_zero _).symm⟩
  | indent => exact ⟨rfl, rfl⟩
  | openBlock header opener footer => simp [step, run, Emit.openBlock, Emitter.indent, change]
  | method signature isStatic => exact hprints (signature.emit_prints isStatic)
  | property signature isStatic => exact hprints (signature.emit_prints config isStatic)
  | globalObject name => exact hprints (Interface.emitGlobalObject_prints _ config .pure)
  | objectWrapper name => exact hprints (Interface.emitObjectWrapper_prints _ config .pure)
  | dedent | closeBlock => exact absurd rfl hs

/-- A step back at depth zero stops and leaves the emitter as it is. -/
theorem step_of_depth_eq_zero (config : Config) (hs : s.change = -1) (hopen : s.FindsOpen m.footers.length)
    (hdepth : m.emitter.depth = 0) :
    (m.step config s).1 = .error .unmatchedDedent ∧ (m.step config s).2.emitter = m.emitter := by
  have hnone : m.emitter.dedent? = none := by simp [Emitter.dedent?, hdepth]
  rcases eq_of_change hs with rfl | ⟨which, rfl⟩
  · simp [step, run, Emit.runOn_dedent, hnone]
  · obtain ⟨footer, hfooter⟩ := exists_footer hopen
    simp [step, hfooter, run, Emit.closeBlock, Emit.runOn_dedent, hnone]

/-- A step back from another depth ends well. -/
theorem step_of_depth_ne_zero (config : Config) (hs : s.change = -1) (hopen : s.FindsOpen m.footers.length)
    (hdepth : m.emitter.depth ≠ 0) :
    (m.step config s).1 = .ok () ∧ ((m.step config s).2.emitter.depth : Int) = m.emitter.depth + s.change := by
  obtain ⟨depth, hd⟩ := Nat.exists_eq_succ_of_ne_zero hdepth
  have hsome : m.emitter.dedent? = some { m.emitter with depth } := by simp [Emitter.dedent?, hd]
  have hnext : (depth : Int) = m.emitter.depth + s.change := by omega
  rcases eq_of_change hs with rfl | ⟨which, rfl⟩
  · simpa [step, run, Emit.runOn_dedent, hsome] using hnext
  · obtain ⟨footer, hfooter⟩ := exists_footer hopen
    simpa [step, hfooter, run, Emit.closeBlock, Emit.runOn_dedent, hsome] using hnext

/-- A step keeps count of the blocks that are open. -/
theorem length_footers_step (config : Config) (hopen : s.FindsOpen m.footers.length) :
    (m.step config s).2.footers.length = s.opens m.footers.length := by
  cases s with
  | closeBlock which =>
      obtain ⟨footer, hfooter⟩ := exists_footer hopen
      simp only [step, hfooter]
      exact List.length_eraseIdx_of_lt hopen
  | _ => rfl

/-- **A step** stops at depth zero, where it goes back, and leaves the emitter as it is; in all other cases it
ends well and changes the depth. -/
theorem step_cases (config : Config) (hopen : s.FindsOpen m.footers.length) :
    (s.change = -1 ∧ m.emitter.depth = 0 ∧ (m.step config s).1 = .error .unmatchedDedent ∧
        (m.step config s).2.emitter = m.emitter) ∨
      (¬ (s.change = -1 ∧ m.emitter.depth = 0) ∧ (m.step config s).1 = .ok () ∧
        ((m.step config s).2.emitter.depth : Int) = m.emitter.depth + s.change) := by
  by_cases hs : s.change = -1
  · by_cases hdepth : m.emitter.depth = 0
    · exact .inl ⟨hs, hdepth, step_of_depth_eq_zero config hs hopen hdepth⟩
    · exact .inr ⟨fun h => hdepth h.2, step_of_depth_ne_zero config hs hopen hdepth⟩
  · exact .inr ⟨fun h => hs h.1, step_of_ne config m hs⟩

/-! ### Scripts -/

/-- Whether a step back at depth zero is how something ended. -/
def isUnmatched : Except Stop Unit → Bool
  | .error .unmatchedDedent => true
  | _ => false

/-- The machine behind a script. -/
def after (config : Config) (m : Machine) (steps : List Step) : Machine :=
  steps.foldl (fun m s => (m.step config s).2) m

/-- How many steps of a script stop. -/
def stops (config : Config) (m : Machine) (steps : List Step) : Nat :=
  (m.trace config steps).countP fun r => isUnmatched r.1

@[simp] theorem after_cons (config : Config) (m : Machine) (s : Step) (steps : List Step) :
    m.after config (s :: steps) = (m.step config s).2.after config steps := rfl

theorem trace_cons (config : Config) (m : Machine) (s : Step) (steps : List Step) :
    m.trace config (s :: steps) = m.step config s :: (m.step config s).2.trace config steps := rfl

theorem stops_cons (config : Config) (m : Machine) (s : Step) (steps : List Step) :
    m.stops config (s :: steps) =
      (if isUnmatched (m.step config s).1 then 1 else 0) +
        (m.step config s).2.stops config steps := by
  simp only [stops, trace_cons, List.countP_cons, Nat.add_comm]

/-- **The depth behind a script and the number of stops**, from any depth on. -/
theorem depth_after_add_stops (config : Config) (m : Machine) (hopen : EndsOpen m.footers.length steps) :
    ((m.after config steps).emitter.depth : Int) = m.emitter.depth + balance steps + m.stops config steps ∧
      (m.stops config steps : Int) = - min 0 (m.emitter.depth + lowest steps) := by
  induction steps generalizing m with
  | nil =>
      have hafter : m.after config [] = m := rfl
      have hstops : m.stops config [] = 0 := rfl
      rw [hafter, hstops, balance_nil, lowest_nil]
      omega
  | cons s steps ih =>
      obtain ⟨hs, hopen⟩ := hopen
      rw [← length_footers_step config hs] at hopen
      obtain ⟨hdepth, hstops⟩ := ih _ hopen
      have hlow := lowest_le_zero steps
      rw [after_cons, stops_cons, balance_cons, lowest_cons]
      rcases step_cases config hs with ⟨hchange, hzero, hresult, hemitter⟩ | ⟨hnot, hresult, hnext⟩
      · rw [hemitter] at hdepth hstops
        have hcount : isUnmatched (m.step config s).1 = true := by rw [hresult]; rfl
        rw [if_pos hcount]
        omega
      · have hcount : isUnmatched (m.step config s).1 = false := by rw [hresult]; rfl
        rw [hcount, if_neg Bool.false_ne_true]
        omega

/-- A step of a script is done by the machine behind the steps in front of it. -/
theorem getElem?_trace (config : Config) (m : Machine) (before : List Step) (s : Step) (behind : List Step) :
    (m.trace config (before ++ s :: behind))[before.length]? = some ((m.after config before).step config s) := by
  induction before generalizing m with
  | nil => rfl
  | cons first before ih => exact ih _

/-- A step of a script finds the blocks open that it ends. -/
theorem endsOpen_after {before behind : List Step} (hopen : EndsOpen m.footers.length (before ++ s :: behind)) :
    s.FindsOpen (m.after config before).footers.length := by
  induction before generalizing m with
  | nil => exact hopen.1
  | cons first before ih =>
      obtain ⟨hfirst, hopen⟩ := hopen
      exact ih (by rwa [length_footers_step config hfirst])

/-- **Depths are reflected at zero.**  Behind a script that starts at depth zero, the depth is the balance less
the lowest balance on the way; as many steps have stopped as the balance was below zero at its lowest. A step
stops just where it goes back from depth zero, and then depth, lines and fragment are as they were; the steps
that neither go forward nor back keep the depth. -/
theorem depth_trace (config : Config) (m : Machine) (steps : List Step) (hstart : m.emitter.depth = 0)
    (hopen : EndsOpen m.footers.length steps) :
    ((m.after config steps).emitter.depth : Int) = balance steps - lowest steps ∧
    (((m.trace config steps).countP fun r => isUnmatched r.1 : Nat) : Int) = - lowest steps ∧
    ∀ before s behind, steps = before ++ s :: behind → ∃ result next,
      (m.trace config steps)[before.length]? = some (result, next) ∧
      (result = .error .unmatchedDedent ↔ s.change = -1 ∧ (m.after config before).emitter.depth = 0) ∧
      (result ≠ .ok () → result = .error .unmatchedDedent ∧ next.emitter = (m.after config before).emitter) ∧
      (s.change = 0 → result = .ok () ∧ next.emitter.depth = (m.after config before).emitter.depth) := by
  obtain ⟨hdepth, hstops⟩ := depth_after_add_stops config m hopen
  have hlow := lowest_le_zero steps
  refine ⟨by omega, show (m.stops config steps : Int) = _ by omega, ?_⟩
  rintro before s behind rfl
  refine ⟨_, _, getElem?_trace config m before s behind, ?_⟩
  have hfinds : s.FindsOpen (m.after config before).footers.length := endsOpen_after hopen
  rcases step_cases config hfinds with
    ⟨hchange, hzero, hresult, hemitter⟩ | ⟨hnot, hresult, hnext⟩
  · exact ⟨⟨fun _ => ⟨hchange, hzero⟩, fun _ => hresult⟩, fun _ => ⟨hresult, hemitter⟩,
      fun h => absurd (hchange.symm.trans h) (by decide)⟩
  · refine ⟨⟨fun h => absurd (hresult.symm.trans h) nofun, fun h => absurd h hnot⟩,
      fun h => absurd hresult h,
      fun h => ⟨hresult, Int.ofNat_inj.mp (hnext.trans (by rw [h, Int.add_zero]))⟩⟩

/-- Two blocks that do not nest, and more steps back than steps forward. -/
theorem depth_trace_interleaved :
    let steps : List Step := [.openBlock "a" openBrace closeBrace, .openBlock "b" "(" ")", .closeBlock 1, .dedent,
      .write "c", .closeBlock, .dedent, .indent, .globalObject "D"]
    let m := start {}
    (m.emitter.depth = 0 ∧ EndsOpen m.footers.length steps) ∧
      (m.after {} steps).emitter.depth = 1 ∧ (m.trace {} steps).countP (fun r => isUnmatched r.1) = 2 := by
  intro steps m
  have hopen : EndsOpen m.footers.length steps := by simp [m, steps, start, EndsOpen, FindsOpen, opens]
  obtain ⟨hdepth, hstops, -⟩ := depth_trace {} m steps rfl hopen
  have hbalance : balance steps = -1 := by decide
  have hlowest : lowest steps = -2 := by decide
  exact ⟨⟨rfl, hopen⟩, by omega, by omega⟩

end Machine

end InteropStubs
