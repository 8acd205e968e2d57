import InteropStubs.Proofs.Generate.Forwarding
import InteropStubs.Proofs.Node.Characters

/-!
# The characters of generated text

Generated text is made of texts of the source, of the configuration and of fixed pieces. So what holds of all
characters of the first two and of the fixed pieces holds of all characters that are generated. Here it is
used of carriage returns (`returnFree_of_generate`): none is generated unless one is given.
-/

namespace InteropStubs

/-- A text without carriage returns. -/
abbrev ReturnFree : String → Prop :=
  WrittenIn (· ≠ '\r')

theorem returnFree_iff {text : String} : ReturnFree text ↔ '\r' ∉ text.toList := by
  refine ⟨fun h hmem => h _ hmem rfl, ?_⟩
  rintro h c hc rfl
  exact h hc

instance (text : String) : Decidable (ReturnFree text) :=
  decidable_of_iff _ returnFree_iff.symm

/-- All texts of a configuration. -/
structure Config.ReturnFree (config : Config) : Prop where
  handleType : InteropStubs.ReturnFree config.handleType
  globalLookup : InteropStubs.ReturnFree config.globalLookup
  globalContainer : InteropStubs.ReturnFree config.globalContainer
  indent : InteropStubs.ReturnFree config.indent

/-! ### Layouts -/

namespace Line

/-- All lines of a layout. -/
def ReturnFree (ls : List Line) : Prop :=
  ∀ l ∈ ls, InteropStubs.ReturnFree l.text

variable {ls ms : List Line}

@[simp] theorem returnFree_nil : ReturnFree [] := nofun

@[simp] theorem returnFree_cons {l : Line} :
    ReturnFree (l :: ls) ↔ InteropStubs.ReturnFree l.text ∧ ReturnFree ls :=
  List.forall_mem_cons

@[simp] theorem returnFree_append : ReturnFree (ls ++ ms) ↔ ReturnFree ls ∧ ReturnFree ms :=
  List.forall_mem_append

@[simp] theorem returnFree_deeper {k : Nat} : ReturnFree (deeper k ls) ↔ ReturnFree ls := by
  simp [ReturnFree, deeper]

@[simp] theorem returnFree_closers {k : Nat} : ReturnFree (closers k) := fun l hl => by
  obtain ⟨depth, -, rfl⟩ := List.mem_map.mp hl
  exact (by decide : InteropStubs.ReturnFree closeBrace)

/-- Blocks around lines bring no return, if their headers do not. -/
theorem returnFree_nested {headers : List String} (hheaders : ∀ header ∈ headers, InteropStubs.ReturnFree header)
    (h : ReturnFree ls) : ReturnFree (nested headers ls) := by
  have hopeners : ReturnFree (openers headers) := by
    induction headers with
    | nil => exact returnFree_nil
    | cons header headers ih =>
        obtain ⟨hheader, hheaders⟩ := List.forall_mem_cons.mp hheaders
        simp only [openers, returnFree_cons, returnFree_deeper]
        exact ⟨hheader, by decide, ih hheaders⟩
  simp [nested, hopeners, h]

/-- The text of lines without returns has none. -/
theorem returnFree_print {unit : String} (hunit : InteropStubs.ReturnFree unit) (depth : Nat)
    (h : ReturnFree ls) : InteropStubs.ReturnFree (print unit depth ls) := by
  refine writtenIn_join fun text htext => ?_
  obtain ⟨l, hl, rfl⟩ := List.mem_map.mp htext
  refine (writtenIn_append _ _).mpr ⟨?_, by decide⟩
  unfold indented
  split
  · exact writtenIn_empty
  · refine (writtenIn_append _ _).mpr ⟨writtenIn_join fun text htext => ?_, h l hl⟩
    exact (List.eq_of_mem_replicate htext) ▸ hunit

end Line

/-! ### Stubs -/

theorem returnFree_visibilityText (isStatic : Bool) : ReturnFree (visibilityText isStatic) := by
  cases isStatic <;> decide

/-- The call of a method has no return. -/
theorem Method.returnFree_call {m : Method} (h : m.WrittenIn (· ≠ '\r')) : ReturnFree m.call := by
  have harguments : ReturnFree (String.join (m.parameters.map fun p => ", " ++ p.name)) := by
    refine writtenIn_join fun text htext => ?_
    obtain ⟨p, hp, rfl⟩ := List.mem_map.mp htext
    exact (writtenIn_append _ _).mpr ⟨by decide, (h.parameters p hp).name⟩
  have hresult : ReturnFree (if m.returns = "void" then "" else "return (" ++ m.returns ++ ")") := by
    split
    · exact writtenIn_empty
    · simp +decide [h.returns]
  rw [Method.call_eq]
  simp +decide [hresult, harguments, h.name]

/-- The layout of a method has no return. -/
theorem Method.returnFree_layout {m : Method} (h : m.WrittenIn (· ≠ '\r')) (isStatic : Bool) :
    Line.ReturnFree (m.layout isStatic) := by
  have hsignature : ReturnFree (visibilityText isStatic ++ (m.returns ++ " " ++ m.name ++ m.parameterList)) := by
    simp +decide [returnFree_visibilityText, h.returns, h.name, h.parameterList]
  refine Line.returnFree_append.mpr ⟨Line.returnFree_nested (by simpa using hsignature) ?_, by simp [Line.blank]⟩
  simpa using Method.returnFree_call h

/-- A line of an accessor has no return. -/
theorem Property.returnFree_accessorLine {p : Property} (h : p.WrittenIn (· ≠ '\r')) {word : String}
    (hword : word ∈ p.accessors) : ReturnFree (p.accessorLine word) := by
  unfold accessorLine
  split
  · simp +decide [h.name, h.type]
  · simp +decide [h.name, h.accessors word hword]

/-- The layout of a property has no return. -/
theorem Property.returnFree_layout {p : Property} (h : p.WrittenIn (· ≠ '\r')) (config : Config)
    (isStatic : Bool) : Line.ReturnFree (p.layout config isStatic) := by
  have hsignature : ReturnFree (visibilityText isStatic ++ (p.type ++ " " ++ p.name)) := by
    simp +decide [returnFree_visibilityText, h.type, h.name]
  refine Line.returnFree_append.mpr ⟨Line.returnFree_nested (by simpa using hsignature) ?_, by simp [Line.blank]⟩
  split
  · intro l hl
    obtain ⟨word, hword, rfl⟩ := List.mem_map.mp hl
    exact returnFree_accessorLine h hword
  · exact Line.returnFree_nil

/-- The class around members without returns has none. -/
theorem Binding.returnFree_layout {config : Config} (hconfig : config.ReturnFree) {name : String}
    (hname : ReturnFree name) (b : Binding) {ls : List Line} (h : Line.ReturnFree ls) :
    Line.ReturnFree (b.layout config name ls) := by
  obtain ⟨hhandle, hlookup, hcontainer, -⟩ := hconfig
  cases b with
  | globalObject =>
      refine Line.returnFree_nested ?_ (Line.returnFree_append.mpr ⟨?_, h⟩)
      · simp +decide [headers, hcontainer, hname]
      · simp +decide [preamble, Line.blank, hhandle, hlookup, hname]
  | objectWrapper =>
      refine Line.returnFree_nested ?_ (Line.returnFree_append.mpr ⟨?_, h⟩)
      · simp +decide [headers, hname]
      · simp +decide [preamble, Line.blank, Line.nested, Line.openers, hhandle, hname]

/-! ### Nodes -/

namespace Node

variable {config : Config}

/-- The members of an interface bring no return. -/
theorem returnFree_membersLayout (config : Config) (isStatic : Bool) {members : List Node}
    (h : ∀ n ∈ members, n.WrittenIn (· ≠ '\r')) :
    Line.ReturnFree (membersLayout config isStatic members) := by
  intro l hl
  obtain ⟨n, hn, hl⟩ := List.mem_flatMap.mp hl
  have hn := h n hn
  cases n with
  | method _ m => exact Method.returnFree_layout hn.2 isStatic l hl
  | property _ p => exact Property.returnFree_layout hn.2 config isStatic l hl
  | _ => exact absurd hl List.not_mem_nil

mutual

/-- A node without returns is rendered without any. -/
theorem returnFree_renderNode (hconfig : config.ReturnFree) : ∀ n : Node,
    (∀ k ∈ allIn n, k.WrittenIn (· ≠ '\r')) → Line.ReturnFree (renderNode config n)
  | namespaceBlock span name ms, h => by
      obtain ⟨hn, hms⟩ := List.forall_mem_cons.mp h
      refine Line.returnFree_nested ?_ (returnFree_render hconfig ms hms)
      simp +decide [hn.2]
  | usingDirective span, h => by
      have hspan : ReturnFree span.text := h _ List.mem_cons_self
      simpa [renderNode] using hspan
  | interface span header ms, h => by
      obtain ⟨hn, hms⟩ := List.forall_mem_cons.mp h
      rw [renderNode]
      split
      · next b _ =>
        refine Line.returnFree_append.mpr ⟨b.returnFree_layout hconfig hn.2.name ?_, by simp [Line.blank]⟩
        exact returnFree_membersLayout config b.isStatic fun k hk => hms k (mem_all_of_mem hk)
      · exact Line.returnFree_nil
  | method .., _ | property .., _ | other .., _ | error .., _ | missing .., _ => Line.returnFree_nil

/-- **Nodes without returns** are rendered without any. -/
theorem returnFree_render (hconfig : config.ReturnFree) : ∀ ns : List Node,
    (∀ k ∈ all ns, k.WrittenIn (· ≠ '\r')) → Line.ReturnFree (render config ns)
  | [], _ => Line.returnFree_nil
  | n :: ns, h => by
      obtain ⟨hn, hns⟩ := List.forall_mem_append.mp h
      exact Line.returnFree_append.mpr ⟨returnFree_renderNode hconfig n hn, returnFree_render hconfig ns hns⟩

end

end Node

/-- **No carriage return is generated** from a source and a configuration without carriage returns. -/
theorem returnFree_of_generate {config : Config} (hconfig : config.ReturnFree) {source text : String}
    (hsource : '\r' ∉ source.toList) (h : generate config source = .ok text) : '\r' ∉ text.toList := by
  obtain ⟨hbroken, -, rfl⟩ := eq_print_of_generate h
  have hnodes := Node.writtenIn_of_mem (returnFree_iff.mpr hsource) hbroken
  refine returnFree_iff.mp (Line.returnFree_print hconfig.indent 0 (Line.returnFree_append.mpr ⟨?_, ?_⟩))
  · simp +decide [fileHeader]
  · exact Node.returnFree_render hconfig _ hnodes

end InteropStubs
