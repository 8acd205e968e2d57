import InteropStubs.Binding
import InteropStubs.Proofs.Emitter.Line
import InteropStubs.Stub.Class

/-!
# Layouts of stubs

What the stub of a member and the class of an interface look like, as lists of lines, and that the
emitting programs print just these lists.

* `Method.layout`, `Property.layout`: a signature with a body in braces, and an empty line.
* `Binding.layout`: the blocks of a class (`Binding.headers`) around its fixed beginning
  (`Binding.preamble`) and the layout of its members.

A member always ends well (`Method.emit_prints`, `Property.emit_prints`). A class ends as its
members do (`Interface.emitGlobalObject_prints`, `Interface.emitObjectWrapper_prints`), and the
empty line behind it is printed only if they end well.
-/

namespace InteropStubs

/-- How the signature of a member begins. -/
def visibilityText (isStatic : Bool) : String :=
  "public " ++ if isStatic then "static " else ""

/-! ### Layouts of members -/

namespace Method

/-- The call that a method forwards to: the name of the member, then the names of the parameters.
Its result is cast and returned unless the method returns nothing. -/
def call (m : Method) : String :=
  (if m.returns = "void" then "" else "return (" ++ m.returns ++ ")") ++ "_js.Invoke("
    ++ ", ".intercalate (("nameof(" ++ m.name ++ ")") :: m.parameters.map Parameter.name) ++ ");"

/-- The layout of the stub of a method. -/
def layout (m : Method) (isStatic : Bool) : List Line :=
  Line.nested [visibilityText isStatic ++ (m.returns ++ " " ++ m.name ++ m.parameterList)]
    [⟨0, m.call⟩] ++ [Line.blank]

end Method

/-- The layout of the stub of a property. -/
def Property.layout (p : Property) (config : Config) (isStatic : Bool) : List Line :=
  Line.nested [visibilityText isStatic ++ (p.type ++ " " ++ p.name)]
    (if config.propertyAccessors then p.accessors.map fun word => ⟨0, p.accessorLine word⟩ else [])
    ++ [Line.blank]

/-! ### Layouts of classes -/

namespace Binding

/-- Whether the members of a class belong to the class itself. -/
def isStatic : Binding → Bool
  | globalObject => true
  | objectWrapper => false

/-- The blocks that the members of the class `name` stand in, outermost first. -/
def headers (config : Config) (name : String) : Binding → List String
  | globalObject =>
    ["public static partial class " ++ config.globalContainer,
      "public static partial class " ++ name]
  | objectWrapper => ["public partial class " ++ name]

/-- What stands in the class `name` in front of its members: the cell and the handle of a global
object; the handle, the constructor and the conversions of a wrapped one. -/
def preamble (config : Config) (name : String) : Binding → List Line
  | globalObject =>
    let handle := config.handleType
    let lookup := "(" ++ handle ++ ")" ++ config.globalLookup ++ "(nameof(" ++ name ++ "))"
    [⟨0, "private static readonly System.Lazy<" ++ handle ++ "> __js = "
        ++ "new System.Lazy<" ++ handle ++ ">(() => " ++ lookup ++ ");"⟩,
      Line.blank,
      ⟨0, "private static " ++ handle ++ " _js => __js.Value;"⟩,
      Line.blank]
  | objectWrapper =>
    let handle := config.handleType
    [⟨0, "private readonly " ++ handle ++ " _js;"⟩, Line.blank]
      ++ Line.nested ["public " ++ name ++ "(" ++ handle ++ " js)"] [⟨0, "_js = js;"⟩]
      ++ [Line.blank,
        ⟨0, "public static " ++ name ++ "? Wrap(" ++ handle
          ++ "? js) => js != null ? new " ++ name ++ "(js) : null;"⟩,
        Line.blank,
        ⟨0, "public static implicit operator " ++ handle ++ "(" ++ name ++ " obj) => obj._js;"⟩,
        Line.blank]

/-- The layout of the class `name` around the layout of its members. -/
def layout (b : Binding) (config : Config) (name : String) (members : List Line) : List Line :=
  Line.nested (b.headers config name) (b.preamble config name ++ members)

end Binding

/-! ### What members print -/

open Emit

theorem runOn_visibility (isStatic : Bool) (e : Emitter) :
    (Emit.visibility isStatic).runOn e = (.ok (), e.write (visibilityText isStatic)) := by
  cases isStatic <;> simp [Emit.visibility, visibilityText, Emitter.write_write]

theorem visibilityText_append_ne_empty (isStatic : Bool) (text : String) :
    visibilityText isStatic ++ text ≠ "" := by
  intro h
  have := congrArg String.length h
  cases isStatic <;> simp [visibilityText] at this

/-- A signature is begun with its visibility. -/
theorem Emit.Prints.signature (isStatic : Bool) (text : String) :
    Prints (Emit.visibility isStatic >>= fun _ => Emit.line text) (.ok ())
      [⟨0, visibilityText isStatic ++ text⟩] := fun e => by
  rw [runOn_bind, runOn_visibility]
  show runOn (Emit.line text) (e.write (visibilityText isStatic)) = _
  rw [runOn_line, Emitter.line_write (visibilityText_append_ne_empty isStatic text)]
  exact Prints.line _ e

/-! #### Methods -/

/-- The part of a method stub that writes its call, one fragment after the other. -/
def Method.emitCall (m : Method) : Emit Unit := do
  unless m.returnsVoid do
    Emit.write ("return (" ++ m.returns ++ ")")
  Emit.write ("_js.Invoke(nameof(" ++ m.name ++ ")")
  m.parameters.forM fun p => Emit.write (", " ++ p.name)
  Emit.line ");"

/-- The arguments of a call, each behind its comma. -/
theorem intercalate_arguments (first : String) (names : List String) :
    ", ".intercalate (first :: names) = first ++ String.join (names.map (", " ++ ·)) := by
  induction names generalizing first with
  | nil => simp
  | cons name names ih =>
      rw [String.intercalate_cons_cons, ih]
      simp [String.append_assoc]

/-- A call, fragment by fragment. -/
theorem Method.call_eq (m : Method) :
    m.call = (if m.returns = "void" then "" else "return (" ++ m.returns ++ ")")
      ++ ("_js.Invoke(nameof(" ++ m.name ++ ")")
      ++ String.join (m.parameters.map fun p => ", " ++ p.name) ++ ");" := by
  have hjs :
      "_js.Invoke(" ++ ("nameof(" ++ m.name ++ ")") = "_js.Invoke(nameof(" ++ m.name ++ ")" := by
    simp [← String.append_assoc]
  rw [call, intercalate_arguments, List.map_map, ← hjs]
  simp only [String.append_assoc, Function.comp_def]

theorem Method.emitCall_prints (m : Method) : Prints m.emitCall (.ok ()) [⟨0, m.call⟩] :=
  fun e => by
    -- whatever fragment is pending, the line that `);` completes is not empty
    have hend (text : String) : text ++ ");" ≠ "" := fun h => by
      simpa using congrArg String.length h
    have hrun : m.emitCall.runOn e = (.ok (), e.line m.call) := by
      rw [Method.call_eq]
      by_cases h : m.returns = "void" <;>
        simp [emitCall, returnsVoid, h, runOn_forM_write, Emitter.write_write,
          Emitter.line_write (hend _)]
    rw [hrun]
    exact Prints.line _ e

/-- **The stub of a method is its layout.** -/
theorem Method.emit_prints (m : Method) (isStatic : Bool) :
    Prints (m.emit isStatic) (.ok ()) (m.layout isStatic) := by
  -- the program regrouped: the signature, and the call between its braces
  have hemit : m.emit isStatic = (Emit.visibility isStatic >>= fun _ =>
      Emit.line (m.returns ++ " " ++ m.name ++ m.parameterList)) >>= fun _ =>
      Emit.line openBrace >>= fun _ => Emit.indent >>= fun _ => m.emitCall >>= fun _ =>
      Emit.dedent >>= fun _ => Emit.line closeBrace >>= fun _ => Emit.line "" := by
    cases h : m.returnsVoid <;> simp [Method.emit, Method.emitCall, h]
  rw [hemit]
  exact (Prints.signature _ _).bind <| (Prints.line _).bind <|
    m.emitCall_prints.indented <| (Prints.line _).bind (Prints.line _)

/-! #### Properties -/

/-- **The stub of a property is its layout.** -/
theorem Property.emit_prints (p : Property) (config : Config) (isStatic : Bool) :
    Prints (p.emit config isStatic) (.ok ()) (p.layout config isStatic) := by
  have hend : Prints (Emit.line closeBrace >>= fun _ => Emit.line "") (.ok ())
      [⟨0, closeBrace⟩, ⟨0, ""⟩] := (Prints.line _).bind (Prints.line _)
  cases h : config.propertyAccessors with
  | false =>
      have hemit : p.emit config isStatic = (Emit.visibility isStatic >>= fun _ =>
          Emit.line (p.type ++ " " ++ p.name)) >>= fun _ => Emit.line openBrace >>= fun _ =>
          Emit.line closeBrace >>= fun _ => Emit.line "" := by
        simp [Property.emit, h]
      rw [hemit, Property.layout, h]
      exact (Prints.signature _ _).bind ((Prints.line _).bind hend)
  | true =>
      have hemit : p.emit config isStatic = (Emit.visibility isStatic >>= fun _ =>
          Emit.line (p.type ++ " " ++ p.name)) >>= fun _ => Emit.line openBrace >>= fun _ =>
          Emit.indent >>= fun _ => Emit.lines (p.accessors.map p.accessorLine) >>= fun _ =>
          Emit.dedent >>= fun _ => Emit.line closeBrace >>= fun _ => Emit.line "" := by
        simp [Property.emit, h]
      rw [hemit, Property.layout, h]
      have hlines := Prints.lines (p.accessors.map p.accessorLine)
      rw [List.map_map] at hlines
      simpa [Line.nested, Line.openers, Line.closers, Line.blank, Function.comp_def] using
        (Prints.signature isStatic (p.type ++ " " ++ p.name)).bind
          ((Prints.line openBrace).bind (hlines.indented hend))

/-! ### What classes print -/

namespace Interface

variable {members : Emit Unit} {result : Except Stop Unit} {ms : List Line}

/-- **The class of a global object** ends as its members do. -/
theorem emitGlobalObject_prints (i : Interface) (config : Config)
    (hm : Prints members result ms) :
    Prints (i.emitGlobalObject config members) result
      (Binding.globalObject.layout config i.name ms
        ++ if result.isOk then [Line.blank] else []) := by
  have hbody (cell handle : String) := (Prints.line cell).bind <| (Prints.line "").bind <|
    (Prints.line handle).bind <| (Prints.line "").bind hm
  rw [Binding.layout, Binding.headers, Line.nested_cons]
  exact (((hbody _ _).block _).block _).followed (Prints.line "")

/-- **The class of a wrapped object** ends as its members do. -/
theorem emitObjectWrapper_prints (i : Interface) (config : Config)
    (hm : Prints members result ms) :
    Prints (i.emitObjectWrapper config members) result
      (Binding.objectWrapper.layout config i.name ms
        ++ if result.isOk then [Line.blank] else []) := by
  have hbody (handle constructor wrap conversion : String) :=
    (Prints.line handle).bind <| (Prints.line "").bind <|
    ((Prints.line "_js = js;").block constructor).bind <| (Prints.line "").bind <|
    (Prints.line wrap).bind <| (Prints.line "").bind <|
    (Prints.line conversion).bind <| (Prints.line "").bind hm
  rw [Binding.layout, Binding.headers]
  exact ((hbody _ _ _ _).block _).followed (Prints.line "")

end Interface

end InteropStubs
