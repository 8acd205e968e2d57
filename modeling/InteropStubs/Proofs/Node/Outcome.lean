import InteropStubs.Proofs.Node.Site

/-!
# How generation ends

A list of nodes is generated in one of two ways (`Node.emitAll_cases`): it has no violation, and its
rendering is printed; or its first violation stands at a clear site, and what is printed is what
stands in front of the site, with the open blocks closed.

* `Node.emitAll_ok_iff`: generation ends well just where there is no violation, and then the lines
  it adds are those of the renderer.
* `Node.emitAll_error_iff`: generation stops just where there is a first violation; it leaves the
  depth and the earlier lines alone, adds what stands in front of the violation and closes the
  blocks around it. It never steps back from depth zero.
-/

namespace InteropStubs.Node

open Emit

variable (config : Config) (locate : Nat → Location)

/-- **The two ways in which generation ends.** -/
theorem emitAll_cases (ns : List Node) :
    (violations config ns = [] ∧ Prints (emitAll config locate ns) (.ok ()) (render config ns)) ∨
    ∃ (s : Site) (n : Node) (c : Cause), ns = s.plug n ∧ s.Clear config ∧
      s.breach? config n = some c ∧
      Prints (emitAll config locate ns) (.error (.refused (c.at (locate n.span.start))))
        (s.printed config ++ Line.closers (s.headers config).length) := by
  cases h : violations config ns with
  | nil => exact .inl ⟨rfl, emitAll_prints ns h⟩
  | cons v rest =>
      obtain ⟨s, hplug, hs, hc⟩ := exists_site ns h
      refine .inr ⟨s, v.node, v.cause, hplug, hs, hc, ?_⟩
      rw [hplug]
      exact s.plug_prints locate hs hc

/-- **Success.**  Generation ends well just where there is no violation, and then it adds the lines
of the renderer, each indented to its depth, and changes nothing else. -/
theorem emitAll_ok_iff (ns : List Node) (e e' : Emitter) (hp : e.pending = none) :
    (emitAll config locate ns).runOn e = (.ok (), e') ↔
      violations config ns = [] ∧
      e' = { e with
        lines := e.lines ++ ((render config ns).map (Line.indented e.unit e.depth)).toArray } := by
  rw [← Emitter.lay_of_pending_eq_none hp]
  rcases emitAll_cases config locate ns with ⟨hv, hprints⟩ | ⟨s, n, c, rfl, hs, hc, hprints⟩
  · rw [hprints e, Prod.mk.injEq]
    simp only [hv, true_and, eq_comm]
  · obtain ⟨rest, hv⟩ := Site.violations_plug hs hc
    rw [hprints e, hv]
    simp

/-- A global object in a namespace, behind a using directive, where the output already stands one
step deep. -/
theorem emitAll_ok_iff_globalObject :
    let nodes := [usingDirective ⟨0, "using System;"⟩,
      namespaceBlock ⟨14, ""⟩ "App"
        [interface ⟨30, ""⟩ ⟨"Log", some ["JSGlobalObject"]⟩
          [.method ⟨60, ""⟩ ⟨"Add", "int?", [⟨"int", "a"⟩, ⟨"", "b"⟩], "(int a, b)"⟩,
            .property ⟨80, ""⟩ ⟨"Size", "int", ["get", "add"]⟩]]]
    let e : Emitter := { unit := " ", lines := #[openBrace], depth := 1 }
    e.pending = none ∧
    (emitAll { propertyAccessors := true } (fun _ => ⟨1, 0⟩) nodes).runOn e =
      (.ok (), { e with lines :=
        #[openBrace,
          " using System;",
          " namespace App",
          " " ++ openBrace,
          "  public static partial class JS",
          "  " ++ openBrace,
          "   public static partial class Log",
          "   " ++ openBrace,
          "    private static readonly System.Lazy<JSObject> __js = "
            ++ "new System.Lazy<JSObject>(() => (JSObject)Runtime.GetGlobalObject(nameof(Log)));",
          "",
          "    private static JSObject _js => __js.Value;",
          "",
          "    public static int? Add(int a, b)",
          "    " ++ openBrace,
          "     return (int?)_js.Invoke(nameof(Add), a, b);",
          "    " ++ closeBrace,
          "",
          "    public static int Size",
          "    " ++ openBrace,
          "     get => _js.GetObjectProperty<int>(nameof(Size));",
          "     add => _js.SetObjectProperty(nameof(Size), value);",
          "    " ++ closeBrace,
          "",
          "   " ++ closeBrace,
          "  " ++ closeBrace,
          "",
          " " ++ closeBrace] }) := by
  intro nodes e
  refine ⟨rfl, (emitAll_ok_iff _ _ nodes e _ rfl).mpr ⟨rfl, ?_⟩⟩
  decide +kernel

/-- **Failure.**  Generation never steps back from depth zero.  It stops just where a violation
stands at a clear site, with the cause located at the violation.  Then it has added the rendering of
everything in front of the site, inside the headers and openers of the blocks around, and one closer
for each of these blocks, and has changed nothing else. -/
theorem emitAll_error_iff (ns : List Node) :
    (∀ e, ((emitAll config locate ns).runOn e).1 ≠ .error .unmatchedDedent) ∧
    ∀ e : Emitter, e.pending = none → ∀ stop e',
      (emitAll config locate ns).runOn e = (.error stop, e') ↔
        ∃ (s : Site) (n : Node) (c : Cause),
          ns = s.plug n ∧ s.Clear config ∧ s.breach? config n = some c ∧
          stop = .refused (c.at (locate n.span.start)) ∧
          e' = { e with
            lines := e.lines ++
              ((s.printed config ++ Line.closers (s.headers config).length).map
                (Line.indented e.unit e.depth)).toArray } := by
  constructor
  · intro e
    rcases emitAll_cases config locate ns with ⟨-, hprints⟩ | ⟨s, n, c, -, -, -, hprints⟩ <;>
      simp [hprints e]
  · intro e hp stop e'
    constructor
    · intro hrun
      rcases emitAll_cases config locate ns with ⟨-, hprints⟩ | ⟨s, n, c, hns, hs, hc, hprints⟩
      · simp [hprints e] at hrun
      · rw [hprints e, Prod.mk.injEq, Except.error.injEq, Emitter.lay_of_pending_eq_none hp] at hrun
        exact ⟨s, n, c, hns, hs, hc, hrun.1.symm, hrun.2.symm⟩
    · rintro ⟨s, n, c, rfl, hs, hc, rfl, rfl⟩
      rw [s.plug_prints locate hs hc e, Emitter.lay_of_pending_eq_none hp]

/-- A using directive among the members of a wrapped object, inside a namespace: the blocks of the
class and of the namespace are closed, and neither the empty line behind the class nor the later
declarations are written. -/
theorem emitAll_error_iff_member :
    let site : Site := .inNamespace [usingDirective ⟨0, "using A;"⟩] ⟨9, ""⟩ "App"
      (.inInterface [] ⟨20, ""⟩ ⟨"Box", some ["JSObjectWrapper"]⟩ .objectWrapper
        [.property ⟨40, ""⟩ ⟨"Size", "int", []⟩] [.property ⟨60, ""⟩ ⟨"Late", "int", []⟩] [])
      [usingDirective ⟨90, "using B;"⟩]
    let e : Emitter := { unit := " ", lines := #["first"], depth := 1 }
    e.pending = none ∧
    (emitAll {} (fun start => ⟨1, start⟩) (site.plug (.other ⟨50, "int x;"⟩ .field []))).runOn e =
      (.error (.refused ⟨⟨1, 50⟩, "Unexpected member: int x;"⟩), { e with lines :=
        #["first",
          " using A;",
          " namespace App",
          " " ++ openBrace,
          "  public partial class Box",
          "  " ++ openBrace,
          "   private readonly JSObject _js;",
          "",
          "   public Box(JSObject js)",
          "   " ++ openBrace,
          "    _js = js;",
          "   " ++ closeBrace,
          "",
          "   public static Box? Wrap(JSObject? js) => js != null ? new Box(js) : null;",
          "",
          "   public static implicit operator JSObject(Box obj) => obj._js;",
          "",
          "   public int Size",
          "   " ++ openBrace,
          "   " ++ closeBrace,
          "",
          "  " ++ closeBrace,
          " " ++ closeBrace] }) := by
  intro site e
  refine ⟨rfl, ((emitAll_error_iff _ _ _).2 e rfl _ _).mpr
    ⟨site, _, .unexpectedMember "int x;", rfl, ⟨rfl, rfl, rfl, rfl⟩, rfl, by decide +kernel, ?_⟩⟩
  decide +kernel

end InteropStubs.Node
