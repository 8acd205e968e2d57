import InteropStubs.Proofs.Emitter.Run

/-!
# Lines

A `Line` is a line of output that knows its depth relative to where the output stands. A layout is a
list of lines; `Line.nested` puts one inside blocks that open in one another.

`Emit.Prints p result ls` says that `p`, run on any emitter, ends as `result` and does to the
emitter what laying down `ls` does (`Emitter.lay`): nothing is taken back, the depth is the one
found, and no fragment is begun. So what a program prints is a list that does not depend on the
emitter, and programs are put together as lists are:

* `Prints.bind`, `Prints.stop`: a sequence prints the concatenation, up to the part that stops.
* `Prints.indented`: what is printed one step deeper is the same layout one level down.
* `Prints.block`: a block prints its header, its braces and the layout of its body between them,
  whether the body stops or not.

`Emitter.lay_of_pending_eq_none` reads a layout back as finished lines.
-/

namespace InteropStubs

/-- A line at a depth relative to where the output stands. -/
structure Line where
  depth : Nat
  text : String
deriving DecidableEq, Repr

namespace Line

/-- The empty line. -/
def blank : Line := ⟨0, ""⟩

/-- The finished text of a line where the output stands at `depth`; an empty line is not
indented. -/
def indented (unit : String) (depth : Nat) (l : Line) : String :=
  if l.text.isEmpty then "" else String.join (List.replicate (depth + l.depth) unit) ++ l.text

/-- A layout `k` levels further down. -/
def deeper (k : Nat) (ls : List Line) : List Line :=
  ls.map fun l => { l with depth := l.depth + k }

/-- The lines that open blocks inside one another, from the outermost header on. -/
def openers : List String → List Line
  | [] => []
  | header :: headers => ⟨0, header⟩ :: ⟨0, openBrace⟩ :: deeper 1 (openers headers)

/-- The lines that close `k` blocks inside one another, the innermost first, each at the depth of
its header. -/
def closers (k : Nat) : List Line :=
  (List.range k).reverse.map fun depth => ⟨depth, closeBrace⟩

/-- A layout inside blocks that open in one another. -/
def nested (headers : List String) (ls : List Line) : List Line :=
  openers headers ++ deeper headers.length ls ++ closers headers.length

@[simp] theorem deeper_nil (k : Nat) : deeper k [] = [] := rfl

@[simp] theorem closers_zero : closers 0 = [] := rfl

theorem deeper_deeper (j k : Nat) (ls : List Line) :
    deeper j (deeper k ls) = deeper (k + j) ls := by
  simp [deeper, Nat.add_assoc]

/-- A layout in two parts is moved part by part. -/
theorem deeper_append (k : Nat) (ls ms : List Line) :
    deeper k (ls ++ ms) = deeper k ls ++ deeper k ms := by
  simp [deeper]

/-- The text of a layout, every line ended. -/
def print (unit : String) (depth : Nat) (ls : List Line) : String :=
  String.join (ls.map fun l => l.indented unit depth ++ "\n")

/-- A layout in two parts is printed part by part. -/
theorem print_append (unit : String) (depth : Nat) (ls ms : List Line) :
    print unit depth (ls ++ ms) = print unit depth ls ++ print unit depth ms := by
  simp [print]

/-- One more block is closed behind the others. -/
theorem closers_succ (k : Nat) : closers (k + 1) = deeper 1 (closers k) ++ [⟨0, closeBrace⟩] := by
  simp [closers, deeper, List.range_succ_eq_map, Function.comp_def]

/-- Blocks inside a block. -/
theorem nested_cons (header : String) (headers : List String) (ls : List Line) :
    nested (header :: headers) ls = nested [header] (nested headers ls) := by
  simp [nested, openers, closers_succ, deeper_append, deeper_deeper]

/-- A block whose body ends by closing `k` blocks closes one block more. -/
theorem nested_append_closers (header : String) (ls : List Line) (k : Nat) :
    nested [header] (ls ++ closers k) = openers [header] ++ deeper 1 ls ++ closers (k + 1) := by
  simp [nested, closers_succ, deeper_append]

end Line

/-! ### Laying down lines -/

namespace Emitter

/-- Write a line: one that starts fresh is indented to its depth. -/
def put (e : Emitter) (l : Line) : Emitter :=
  { ({ e with depth := e.depth + l.depth }).line l.text with depth := e.depth }

/-- Write lines one after the other. -/
def lay (e : Emitter) (ls : List Line) : Emitter :=
  ls.foldl put e

@[simp] theorem lay_nil (e : Emitter) : e.lay [] = e := rfl

/-- A layout in two parts is laid down part by part. -/
theorem lay_append (e : Emitter) (ls ms : List Line) : e.lay (ls ++ ms) = (e.lay ls).lay ms :=
  List.foldl_append

theorem put_depth_zero (text : String) (e : Emitter) : e.put ⟨0, text⟩ = e.line text := by
  cases hp : e.pending <;> simp [put, line, indentation, hp]

/-- A line, where the output stands one step deeper. -/
theorem put_indent (e : Emitter) (l : Line) :
    e.indent.put l = (e.put { l with depth := l.depth + 1 }).indent := by
  have hd : e.depth + 1 + l.depth = e.depth + (l.depth + 1) := by omega
  cases hp : e.pending <;> simp [put, line, indent, indentation, hp, hd]

/-- A layout one step deeper. -/
theorem lay_indent (e : Emitter) (ls : List Line) :
    e.indent.lay ls = (e.lay (Line.deeper 1 ls)).indent := by
  induction ls generalizing e with
  | nil => rfl
  | cons l ls ih => exact (congrArg (lay · ls) (put_indent e l)).trans (ih _)

@[simp] theorem lay_unit (e : Emitter) (ls : List Line) : (e.lay ls).unit = e.unit := by
  induction ls generalizing e with
  | nil => rfl
  | cons l ls ih =>
      refine (ih (e.put l)).trans ?_
      cases hp : e.pending <;> simp [put, line, hp]

@[simp] theorem lay_depth (e : Emitter) (ls : List Line) : (e.lay ls).depth = e.depth := by
  induction ls generalizing e with
  | nil => rfl
  | cons l ls ih => exact ih (e.put l)

/-- **A layout as finished lines.** Where no fragment is pending, every line of it is added,
indented, behind the lines that are there, and nothing else changes. -/
theorem lay_of_pending_eq_none {e : Emitter} (hp : e.pending = none) (ls : List Line) :
    e.lay ls = { e with lines := e.lines ++ (ls.map (Line.indented e.unit e.depth)).toArray } := by
  induction ls generalizing e with
  | nil => simp
  | cons l ls ih =>
      have hput : e.put l = { e with lines := e.lines.push (l.indented e.unit e.depth) } := by
        simp [put, line, indentation, Line.indented, hp]
      show (e.put l).lay ls = _
      -- the induction hypothesis is taken at `e.put l`, where still nothing is pending
      rw [hput, ih (by exact hp)]
      simp

/-- The text of some lines behind another text. -/
theorem foldl_append_lines (text : String) (lines : List String) :
    lines.foldl (fun text line => text ++ line ++ "\n") text =
      text ++ String.join (lines.map (· ++ "\n")) := by
  induction lines generalizing text with
  | nil => simp
  | cons line lines ih =>
      rw [List.foldl_cons, ih, List.map_cons, String.join_cons]
      simp only [String.append_assoc]

/-- Laying down lines adds their text. -/
theorem output_lay {e : Emitter} (hp : e.pending = none) (ls : List Line) :
    (e.lay ls).output = e.output ++ Line.print e.unit e.depth ls := by
  rw [lay_of_pending_eq_none hp]
  simp [output, hp, foldl_append_lines, Line.print, Function.comp_def]

/-- What is laid down first is all there is. -/
theorem output_lay_start (unit : String) (ls : List Line) :
    (({ unit := unit } : Emitter).lay ls).output = Line.print unit 0 ls := by
  rw [output_lay rfl]
  exact String.empty_append

end Emitter

/-! ### What programs print -/

namespace Emit

/-- Run on any emitter, `p` ends as `result` and lays down `ls`. -/
def Prints (p : Emit Unit) (result : Except Stop Unit) (ls : List Line) : Prop :=
  ∀ e : Emitter, p.runOn e = (result, e.lay ls)

namespace Prints

variable {p q : Emit Unit} {result : Except Stop Unit} {ls ms : List Line}

theorem pure : Prints (Pure.pure ()) (.ok ()) [] := fun _ => rfl

theorem throw (stop : Stop) : Prints (MonadExcept.throw stop) (.error stop) [] := fun _ => rfl

theorem line (text : String) : Prints (Emit.line text) (.ok ()) [⟨0, text⟩] := fun e => by
  rw [runOn_line, ← Emitter.put_depth_zero]; rfl

/-- A part that ends well, and what follows. -/
theorem bind (hp : Prints p (.ok ()) ls) (hq : Prints q result ms) :
    Prints (p >>= fun _ => q) result (ls ++ ms) := fun e => by
  rw [runOn_bind, hp e]
  show q.runOn (e.lay ls) = _
  rw [hq, Emitter.lay_append]

/-- A part that stops keeps what follows from running. -/
theorem stop {why : Stop} (hp : Prints p (.error why) ls) (k : Unit → Emit Unit) :
    Prints (p >>= k) (.error why) ls := fun e => by
  rw [runOn_bind, hp e]

/-- A part whatever its outcome, and what follows it only if it ends well. -/
theorem followed (hp : Prints p result ls) (hq : Prints q (.ok ()) ms) :
    Prints (p >>= fun _ => q) result (ls ++ if result.isOk then ms else []) := by
  cases result with
  | ok _ => exact hp.bind hq
  | error why =>
      -- nothing follows a stop, so the lines of `q` are not there
      have hnil : ls ++ (if (Except.error why : Except Stop Unit).isOk then ms else []) = ls := by
        simp [Except.isOk, Except.toBool]
      rw [hnil]
      exact hp.stop _

/-- A part for each element of a list, where all parts end well. -/
theorem forM {α : Type} {f : α → Emit Unit} {g : α → List Line} {xs : List α}
    (h : ∀ x ∈ xs, Prints (f x) (.ok ()) (g x)) :
    Prints (xs.forM f) (.ok ()) (xs.flatMap g) := by
  induction xs with
  | nil => exact pure
  | cons x xs ih =>
      exact (h x List.mem_cons_self).bind (ih fun y hy => h y (List.mem_cons_of_mem x hy))

/-- Lines are printed as they are. -/
theorem lines (texts : List String) :
    Prints (Emit.lines texts) (.ok ()) (texts.map fun text => ⟨0, text⟩) := by
  rw [List.map_eq_flatMap]
  exact forM fun text _ => line text

/-- A part between a step forward and a step back. -/
theorem indented (hp : Prints p (.ok ()) ls) (hq : Prints q result ms) :
    Prints (indent >>= fun _ => p >>= fun _ => dedent >>= fun _ => q) result
      (Line.deeper 1 ls ++ ms) := fun e => by
  simp only [runOn_bind, runOn_indent, hp e.indent, Emitter.lay_indent, runOn_dedent_indent]
  rw [hq, Emitter.lay_append]

/-- **A block is closed however its body ends.** -/
theorem block (header : String) (hp : Prints p result ls) :
    Prints (Emit.block header p) result (Line.nested [header] ls) := fun e => by
  -- the header and both braces as layouts, so that the block is laid down as one list
  have hopen : (e.line header).line openBrace = e.lay (Line.openers [header]) := by
    simp [Line.openers, Line.deeper, Emitter.lay, Emitter.put_depth_zero]
  have hclose (e : Emitter) : e.line closeBrace = e.lay (Line.closers 1) := by
    simp [Line.closers, Emitter.lay, Emitter.put_depth_zero]
  simp only [Emit.block, openBlock, closeBlock, runOn_bind, runOn_outcome_bind, runOn_line,
    runOn_indent, runOn_ofExcept, hp _, Emitter.lay_indent, runOn_dedent_indent, hopen, hclose,
    Line.nested, Emitter.lay_append, List.length_singleton]

end Prints

end Emit

end InteropStubs
