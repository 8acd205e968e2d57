import InteropStubs.Proofs.File.Location
import InteropStubs.Proofs.Generate.Refusal
import InteropStubs.Proofs.Node.Parameters

/-!
# What calls forward

Every method of an interface of a generated source has a stub in the text that is generated
(`Node.layout_within_render`), and the call in it forwards the entries of the parameter list, as the list
stands in the source, that are passed on (`forwards_of_generate`).

These are all entries, in order, where nothing but blanks is behind the name of a collecting one. A
comment there takes its name out of the call, and the stub still has it in its parameter list
(`calls_change_with_comment`).
-/

namespace InteropStubs

/-! ### The methods of a file -/

/-- The signature of a method. -/
def Node.signature? : Node → Option Method
  | method _ m => some m
  | _ => none

/-- The methods among the members of an interface. -/
def Node.methods : Node → List Method
  | interface _ _ members => members.filterMap signature?
  | _ => []

/-- The methods of the interfaces of a file. -/
def File.methods (f : File) : List Method :=
  (Node.all f.nodes).flatMap Node.methods

/-- The parameter list of a method stands in some tokens and is made of some entries. -/
structure Method.Declares (m : Method) (tokens : List Token) (es : List ParameterEntry) : Prop where
  list : ∃ opening inner closing,
    Tree.tokensAll [.group .round opening inner (.present closing)] <:+: tokens ∧
      m.parameterList = Tree.verbatim [.group .round opening inner (.present closing)] ∧
      ParameterList closing inner es
  /-- The parameters that are kept are the entries that are passed on. -/
  kept : m.parameters.map Parameter.name = ParameterEntry.forwardedNames es

namespace Node

theorem mem_of_mem_methods {n : Node} {m : Method} (h : m ∈ n.methods) :
    ∃ span header members s, n = .interface span header members ∧ .method s m ∈ members := by
  cases n with
  | interface span header members =>
      obtain ⟨k, hk, hm⟩ := List.mem_filterMap.mp h
      cases k <;> simp only [signature?, reduceCtorEq, Option.some.injEq] at hm
      exact ⟨span, header, members, _, rfl, hm ▸ hk⟩
  | _ => exact absurd h List.not_mem_nil

/-- There is no interface among the members of an interface without violations. -/
theorem methods_all_members {members : List Node} (h : memberViolations members = []) :
    (all members).flatMap methods = [] := by
  refine List.flatMap_eq_nil_iff.mpr fun n hn => ?_
  rw [all_eq_flatMap] at hn
  obtain ⟨k, hk, hn⟩ := List.mem_flatMap.mp hn
  rcases method_or_property_of_mem h hk with ⟨_, _, rfl⟩ | ⟨_, _, rfl⟩ <;>
    exact List.mem_singleton.mp hn ▸ rfl

/-- A method of an interface has its parameter list in the tokens that the interface was read from. -/
theorem exists_declares {tokens : List Token} {ns : List Node} (hlocated : Located tokens ns) {n : Node}
    (hn : n ∈ all ns) {m : Method} (hm : m ∈ n.methods) : ∃ es, m.Declares tokens es := by
  obtain ⟨span, header, members, s, rfl, hmember⟩ := mem_of_mem_methods hm
  obtain ⟨run, hrun, hread⟩ := hlocated.runs _ (mem_all_of_mem_members hmember _ hn)
  obtain ⟨opening, inner, closing, es, hgroup, hlist, hes, hkept⟩ :=
    exists_entries_of_mem_method (Reader.mem_of_whole? hread.keeps)
  obtain ⟨before, after, rfl⟩ := List.append_of_mem hgroup
  have hinfix : [.group .round opening inner (.present closing)] <:+:
      before ++ .group .round opening inner (.present closing) :: after := ⟨before, after, by simp⟩
  exact ⟨es, ⟨opening, inner, closing, (Tree.tokensAll_isInfix hinfix).trans hrun, hlist, hes⟩, hkept⟩

end Node

/-! ### Layouts inside layouts -/

namespace Line

/-- A layout stands in another one, at some depth. -/
def Within (stub ls : List Line) : Prop :=
  ∃ depth, deeper depth stub <:+: ls

variable {stub ls : List Line}

theorem Within.here (h : stub <:+: ls) : Within stub ls :=
  ⟨0, by simpa [deeper] using h⟩

theorem Within.append_left (h : Within stub ls) (before : List Line) : Within stub (before ++ ls) :=
  h.imp fun _ hd => hd.trans (List.suffix_append _ _).isInfix

theorem Within.append_right (h : Within stub ls) (after : List Line) : Within stub (ls ++ after) :=
  h.imp fun _ hd => hd.trans (List.prefix_append _ _).isInfix

theorem Within.nested (h : Within stub ls) (headers : List String) :
    Within stub (nested headers ls) := by
  obtain ⟨depth, before, after, rfl⟩ := h
  refine ⟨depth + headers.length, ?_⟩
  rw [Line.nested, ← deeper_deeper, deeper_append, deeper_append]
  exact ⟨openers headers ++ deeper headers.length before,
    deeper headers.length after ++ closers headers.length, by simp⟩

theorem print_deeper (unit : String) (depth k : Nat) (ls : List Line) :
    print unit depth (deeper k ls) = print unit (depth + k) ls := by
  simp [print, deeper, indented, Function.comp_def, Nat.add_comm, Nat.add_left_comm]

/-- What stands in a layout is printed with it. -/
theorem Within.print (h : Within stub ls) (unit : String) :
    ∃ before depth after, Line.print unit 0 ls = before ++ Line.print unit depth stub ++ after := by
  obtain ⟨depth, before, after, rfl⟩ := h
  refine ⟨Line.print unit 0 before, depth, Line.print unit 0 after, ?_⟩
  rw [print_append, print_append, print_deeper, Nat.zero_add]

end Line

/-! ### Stubs -/

namespace Node

variable {config : Config} {m : Method}

/-- The layouts of methods stand in the layout of the members. -/
theorem layout_infix_membersLayout {members : List Node} {k : Node} (hk : k ∈ members)
    (hm : k.signature? = some m) (isStatic : Bool) :
    m.layout isStatic <:+: membersLayout config isStatic members := by
  obtain ⟨before, after, rfl⟩ := List.append_of_mem hk
  have hlayout : memberLayout config isStatic k = m.layout isStatic := by
    cases k <;> simp only [signature?, reduceCtorEq, Option.some.injEq] at hm
    rw [memberLayout, hm]
  exact ⟨membersLayout config isStatic before, membersLayout config isStatic after, by
    simp [membersLayout, hlayout]⟩

mutual

theorem layout_within_renderNode : ∀ n : Node, violationsIn config n = [] →
    m ∈ (allIn n).flatMap methods → ∃ isStatic, Line.Within (m.layout isStatic) (renderNode config n)
  | namespaceBlock _ name ms, h, hm => by
      rw [allIn, List.flatMap_cons] at hm
      obtain ⟨isStatic, hw⟩ := layout_within_render ms h hm
      exact ⟨isStatic, hw.nested _⟩
  | usingDirective _, _, hm => absurd hm List.not_mem_nil
  | interface span header members, h, hm => by
      obtain ⟨b, hb, hmembers⟩ := exists_binding_of_violationsIn h
      rw [allIn, List.flatMap_cons, methods_all_members hmembers, List.append_nil] at hm
      obtain ⟨k, hk, hsignature⟩ := List.mem_filterMap.mp hm
      have hw : Line.Within (m.layout b.isStatic) (membersLayout config b.isStatic members) :=
        .here (layout_infix_membersLayout hk hsignature b.isStatic)
      rw [renderNode, hb]
      exact ⟨b.isStatic, ((hw.append_left _).nested _).append_right _⟩
  | method .., h, _ | property .., h, _ | other .., h, _ | error .., h, _ | missing .., h, _ => by
      simp [violationsIn, own, breach?] at h

/-- **Every method has its stub** in the rendering. -/
theorem layout_within_render : ∀ ns : List Node, violations config ns = [] →
    m ∈ (all ns).flatMap methods → ∃ isStatic, Line.Within (m.layout isStatic) (render config ns)
  | n :: ns, h, hm => by
      obtain ⟨hn, hns⟩ := List.append_eq_nil_iff.mp h
      rw [all, List.flatMap_append] at hm
      rcases List.mem_append.mp hm with hm | hm
      · obtain ⟨isStatic, hw⟩ := layout_within_renderNode n hn hm
        exact ⟨isStatic, hw.append_right _⟩
      · obtain ⟨isStatic, hw⟩ := layout_within_render ns hns hm
        exact ⟨isStatic, hw.append_left _⟩

end

end Node

/-- What is generated for a source is its rendering, and nothing in the source is broken. -/
theorem eq_print_of_generate {config : Config} {source text : String}
    (h : generate config source = .ok text) :
    Node.anyHasError (File.read source).nodes = false ∧
      Node.violations config (File.read source).nodes = [] ∧
      text = Line.print config.indent 0
        ((fileHeader.map fun text => ⟨0, text⟩) ++ Node.render config (File.read source).nodes) := by
  cases hparse : File.parse source with
  | error d => simp [generate, hparse] at h
  | ok f =>
      obtain ⟨rfl, hbroken⟩ := File.parse_eq_ok_iff.mp hparse
      have hsource {result : Except Stop Unit} {ls : List Line}
          (hprints : Emit.Prints ((File.read source).emit config) result ls) :
          Emit.Prints (Emit.source config source) result ls := by
        rwa [Emit.source, hparse]
      rcases Node.emitAll_cases config (File.read source).locate (File.read source).nodes with
        ⟨hv, hprints⟩ | ⟨s, n, c, -, -, -, hprints⟩
      · rw [generate_eq_of_prints (hsource hprints)] at h
        obtain rfl := Except.ok.inj h
        exact ⟨hbroken, hv, Emitter.output_lay_start _ _⟩
      · simp [generate_eq_of_prints (hsource hprints), Except.map] at h

/-- **What a call forwards.**  Every method of an interface of a generated source has a stub in the text
that is generated. Its parameter list stands in the source and is made of entries, and the arguments of
its call are the names of the entries in order, each once, but for collecting entries that trivia
follow. -/
theorem forwards_of_generate {config : Config} {source text : String}
    (h : generate config source = .ok text) :
    ∀ m ∈ (File.read source).methods, ∃ es, m.Declares (Token.ofChars source.toList) es ∧
      m.call = (if m.returns = "void" then "" else "return (" ++ m.returns ++ ")") ++ "_js.Invoke("
        ++ ", ".intercalate (("nameof(" ++ m.name ++ ")") ::
            ParameterEntry.forwardedNames es) ++ ");" ∧
      ∃ before depth isStatic after,
        text = before ++ Line.print config.indent depth (m.layout isStatic) ++ after := by
  intro m hm
  obtain ⟨hbroken, hv, rfl⟩ := eq_print_of_generate h
  have hlocated := Node.located_ofTrees hbroken
  rw [Tree.tokensAll_ofTokens] at hlocated
  obtain ⟨n, hn, hmethods⟩ := List.mem_flatMap.mp hm
  obtain ⟨es, hes⟩ := Node.exists_declares hlocated hn hmethods
  refine ⟨es, hes, ?_, ?_⟩
  · rw [Method.call, hes.kept]
  · obtain ⟨isStatic, hw⟩ := Node.layout_within_render _ hv hm
    obtain ⟨before, depth, after, hprint⟩ := (hw.append_left _).print config.indent
    exact ⟨before, depth, isStatic, after, hprint⟩

/-- A comment behind an ordinary parameter and one behind a collecting parameter, which is lost. -/
theorem forwards_of_generate_commented :
    let source := "interface console : JSGlobalObject "
      ++ braced "void log(string s /* a */, params object[] args /* b */);"
    let m : Method :=
      ⟨"log", "void", [⟨"string", "s"⟩], "(string s /* a */, params object[] args /* b */)"⟩
    ∃ text, generate {} source = .ok text ∧ m ∈ (File.read source).methods ∧
      m.call = "_js.Invoke(nameof(log), s);" ∧
      ∃ es, m.Declares (Token.ofChars source.toList) es ∧
        ∃ before depth isStatic after,
          text = before ++ Line.print "    " depth (m.layout isStatic) ++ after := by
  intro source m
  obtain ⟨text, h⟩ : ∃ text, generate {} source = .ok text := exists_generate_of_isOk (by decide +kernel)
  have hm : m ∈ (File.read source).methods := by decide +kernel
  obtain ⟨es, hes, -, hstub⟩ := forwards_of_generate h m hm
  exact ⟨text, h, hm, by decide +kernel, es, hes, hstub⟩

/-- **A comment changes a call.**  The same list forwards its only parameter if blanks stand in place of
the comment. -/
theorem calls_change_with_comment :
    let commented :=
      "interface console : JSGlobalObject " ++ braced "void log(params object[] args /* rest */);"
    let blank :=
      "interface console : JSGlobalObject " ++ braced "void log(params object[] args           );"
    (generate {} commented).isOk = true ∧ (generate {} blank).isOk = true ∧
      (File.read commented).methods.map Method.call = ["_js.Invoke(nameof(log));"] ∧
      (File.read blank).methods.map Method.call = ["_js.Invoke(nameof(log), args);"] := by
  decide +kernel

end InteropStubs
