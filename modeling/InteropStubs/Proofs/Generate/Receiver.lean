import InteropStubs.Proofs.Generate.Forwarding

/-!
# What receivers mean

Every stub calls through the name `_js`. What the name means in a stub is decided by the parameters of the
stub and by the declarations of its class, which are the handle, what the class needs around it, and the
members of the interface (`Binding.receiver?`). The names of parameters and members come from the source, and
generation does not look at them, so the name means the handle just where none of them takes it
(`routes_of_generate`); a source whose names take it is generated all the same (`receivers_are_captured`).
-/

namespace InteropStubs

/-! ### Scopes -/

/-- The value of hexadecimal digits. -/
def hexValue (digits : List Char) : Nat :=
  let value (c : Char) :=
    if c.isDigit then c.toNat - '0'.toNat
    else if 'a' ≤ c then c.toNat - 'a'.toNat + 10 else c.toNat - 'A'.toNat + 10
  digits.foldl (fun n c => 16 * n + value c) 0

/-- The characters of a name with its escapes read; `skip` characters of an escape are still to pass. -/
def unescaped : (skip : Nat) → List Char → List Char
  | _, [] => []
  | skip + 1, _ :: cs => unescaped skip cs
  | 0, '\\' :: cs =>
    match Scan.wordEscape? cs with
    | some size => Char.ofNat (hexValue (cs.take size).tail) :: unescaped size cs
    | none => '\\' :: unescaped 0 cs
  | 0, c :: cs => c :: unescaped 0 cs

/-- The ranges of the format characters, which do not count in a name. -/
def formatRanges : List (Nat × Nat) := [
  (0xad, 0xad), (0x600, 0x605), (0x61c, 0x61c), (0x6dd, 0x6dd), (0x70f, 0x70f), (0x890, 0x891),
  (0x8e2, 0x8e2), (0x180e, 0x180e), (0x200b, 0x200f), (0x202a, 0x202e), (0x2060, 0x2064),
  (0x2066, 0x206f), (0xfeff, 0xfeff), (0xfff9, 0xfffb), (0x110bd, 0x110bd), (0x110cd, 0x110cd),
  (0x13430, 0x13438), (0x1bca0, 0x1bca3), (0x1d173, 0x1d17a), (0xe0001, 0xe0001), (0xe0020, 0xe007f)]

/-- The name that a spelling stands for: the mark that keeps it from being a keyword is left out, escapes are
read, and format characters do not count. -/
def plainName (name : String) : String :=
  let spelling := match name.toList with
    | '@' :: cs => cs
    | cs => cs
  String.ofList ((unescaped 0 spelling).filter fun c => !Text.inRanges formatRanges c)

example : ["_js", "@_js", "\\u005fjs", "@_\\U0000006A\\u200ds", "js"].map plainName =
    ["_js", "_js", "_js", "_js", "js"] := by
  decide +kernel

/-- What a name in the body of a stub stands for. -/
inductive Meaning where
  | parameter
  /-- The cell that the handle of a global object is kept in. -/
  | cell
  | handle
  /-- Something else that every class of its kind has. -/
  | helper
  | member
deriving DecidableEq, Repr

/-- What a name means among some declarations: nothing, if none of them or more than one has it. -/
def Meaning.of? (declared : List (String × Meaning)) (name : String) : Option Meaning :=
  match declared.filter (·.1 == name) with
  | [d] => some d.2
  | _ => none

namespace Binding

/-- What a class declares for itself. -/
def own : Binding → List (String × Meaning)
  | globalObject => [("__js", .cell), ("_js", .handle)]
  | objectWrapper => [("_js", .handle), ("Wrap", .helper)]

/-- What a class with members of the given names declares. -/
def declared (b : Binding) (members : List String) : List (String × Meaning) :=
  b.own ++ members.map fun name => (plainName name, .member)

/-- What the receiver `_js` means in a stub with the given parameters: one of them if it is called so, and
else what it means in the class. -/
def receiver? (b : Binding) (members parameters : List String) : Option Meaning :=
  if "_js" ∈ parameters.map plainName then some .parameter
  else Meaning.of? (b.declared members) "_js"

/-- A stub routes through the handle of its class: the receiver means the handle, and the handle of a global
object still finds its cell. -/
structure Routes (b : Binding) (members parameters : List String) : Prop where
  receiver : b.receiver? members parameters = some .handle
  cell : b = globalObject → Meaning.of? (b.declared members) "__js" = some .cell

theorem of?_declared {b : Binding} {name : String} {meaning : Meaning}
    (hown : b.own.filter (·.1 == name) = [(name, meaning)]) (members : List String) :
    Meaning.of? (b.declared members) name = some meaning ↔ name ∉ members.map plainName := by
  have hmembers : (members.map fun member => (plainName member, Meaning.member)).filter (·.1 == name) = [] ↔
      name ∉ members.map plainName := by
    rw [List.filter_eq_nil_iff]
    simp
  rw [Meaning.of?, declared, List.filter_append, hown, ← hmembers]
  split
  · next d hd =>
    obtain ⟨rfl, hnil⟩ := List.cons.inj hd
    exact iff_of_true rfl hnil
  · next hmore =>
    refine ⟨nofun, fun hnil => absurd ?_ (hmore (name, meaning))⟩
    rw [hnil, List.append_nil]

/-- **A stub routes through the handle** just where no parameter and no member takes the names that it goes
by. -/
theorem routes_iff (b : Binding) (members parameters : List String) :
    b.Routes members parameters ↔
      "_js" ∉ parameters.map plainName ∧ "_js" ∉ members.map plainName ∧
        (b = globalObject → "__js" ∉ members.map plainName) := by
  have hhandle : Meaning.of? (b.declared members) "_js" = some .handle ↔
      "_js" ∉ members.map plainName := of?_declared (by cases b <;> decide) members
  have hcell (hb : b = globalObject) : Meaning.of? (b.declared members) "__js" = some .cell ↔
      "__js" ∉ members.map plainName := of?_declared (by subst hb; decide) members
  constructor
  · rintro ⟨hreceiver, hlookup⟩
    rw [receiver?] at hreceiver
    split at hreceiver
    · exact absurd hreceiver nofun
    · next hparameters => exact ⟨hparameters, hhandle.mp hreceiver, fun hb => (hcell hb).mp (hlookup hb)⟩
  · rintro ⟨hparameters, hmembers, hlookup⟩
    exact ⟨by rw [receiver?, if_neg hparameters]; exact hhandle.mpr hmembers,
      fun hb => (hcell hb).mpr (hlookup hb)⟩

end Binding

/-! ### Stubs of a source -/

namespace Node

/-- The signature of a property. -/
def property? : Node → Option Property
  | property _ p => some p
  | _ => none

/-- The properties among the members of an interface. -/
def properties : Node → List Property
  | interface _ _ members => members.filterMap property?
  | _ => []

/-- The names of the members of an interface. -/
def memberNames (n : Node) : List String :=
  n.methods.map Method.name ++ n.properties.map Property.name

variable {config : Config} {span : Span} {header : Interface} {members : List Node}

mutual

theorem layout_within_renderNode_interface : ∀ n : Node, violationsIn config n = [] →
    interface span header members ∈ allIn n → ∃ b, header.binding config = .ok b ∧
      Line.Within (b.layout config header.name (membersLayout config b.isStatic members))
        (renderNode config n)
  | namespaceBlock s name ms, h, hm => by
      rcases List.mem_cons.mp hm with heq | hm
      · exact absurd heq nofun
      · obtain ⟨b, hb, hw⟩ := layout_within_render_interface ms h hm
        exact ⟨b, hb, hw.nested _⟩
  | interface s header' members', h, hm => by
      obtain ⟨b, hb, hmembers⟩ := exists_binding_of_violationsIn h
      rcases List.mem_cons.mp hm with heq | hm
      · obtain ⟨rfl, rfl, rfl⟩ := interface.inj heq
        rw [renderNode, hb]
        exact ⟨b, rfl, (Line.Within.here List.infix_rfl).append_right _⟩
      · -- the members are methods and properties, which have no interface below them
        rw [all_eq_flatMap] at hm
        obtain ⟨k, hk, hm⟩ := List.mem_flatMap.mp hm
        rcases method_or_property_of_mem hmembers hk with ⟨_, _, rfl⟩ | ⟨_, _, rfl⟩ <;>
          exact absurd (List.mem_singleton.mp hm) nofun
  | usingDirective _, _, hm => absurd (List.mem_singleton.mp hm) nofun
  | method .., h, _ | property .., h, _ | other .., h, _ | error .., h, _ | missing .., h, _ => by
      simp [violationsIn, own, breach?] at h

/-- **Every interface has its class** in the rendering. -/
theorem layout_within_render_interface : ∀ ns : List Node, violations config ns = [] →
    interface span header members ∈ all ns → ∃ b, header.binding config = .ok b ∧
      Line.Within (b.layout config header.name (membersLayout config b.isStatic members)) (render config ns)
  | n :: ns, h, hm => by
      obtain ⟨hn, hns⟩ := List.append_eq_nil_iff.mp h
      rcases List.mem_append.mp hm with hm | hm
      · obtain ⟨b, hb, hw⟩ := layout_within_renderNode_interface n hn hm
        exact ⟨b, hb, hw.append_right _⟩
      · obtain ⟨b, hb, hw⟩ := layout_within_render_interface ns hns hm
        exact ⟨b, hb, hw.append_left _⟩

end

end Node

/-- **When stubs route through the handle.**  Every interface of a generated source has its class in the
text. The stub of a method calls through `_js`, whatever is in its parameter list, and so does every accessor
of a property; the name means the handle of the class just where no entry of the parameter list and no member
is called so, and no member of a global object takes the name of the cell. -/
theorem routes_of_generate {config : Config} {source text : String}
    (h : generate config source = .ok text) {span : Span} {header : Interface} {members : List Node}
    (hn : .interface span header members ∈ Node.all (File.read source).nodes) :
    let n := Node.interface span header members
    ∃ b, header.binding config = .ok b ∧
      (∃ before depth after, text = before ++ Line.print config.indent depth
        (b.layout config header.name (Node.membersLayout config b.isStatic members)) ++ after) ∧
      (∀ m ∈ n.methods, ∃ es, m.Declares (Token.ofChars source.toList) es ∧
        (∃ result arguments, m.call = result ++ "_js.Invoke(" ++ arguments) ∧
        let names := es.map fun e => e.name.text
        (b.Routes n.memberNames names ↔
          "_js" ∉ names.map plainName ∧ "_js" ∉ n.memberNames.map plainName ∧
            (b = .globalObject → "__js" ∉ n.memberNames.map plainName))) ∧
      ∀ p ∈ n.properties, ∀ word ∈ p.accessors,
        (∃ arrow arguments, p.accessorLine word = arrow ++ " => _js." ++ arguments) ∧
        (b.Routes n.memberNames [] ↔
          "_js" ∉ n.memberNames.map plainName ∧
            (b = .globalObject → "__js" ∉ n.memberNames.map plainName)) := by
  intro n
  obtain ⟨hbroken, hv, rfl⟩ := eq_print_of_generate h
  have hlocated := Node.located_ofTrees hbroken
  rw [Tree.tokensAll_ofTokens] at hlocated
  obtain ⟨b, hb, hw⟩ := Node.layout_within_render_interface _ hv hn
  obtain ⟨before, depth, after, hprint⟩ := (hw.append_left _).print config.indent
  refine ⟨b, hb, ⟨before, depth, after, hprint⟩, fun m hm => ?_, fun p _ word _ => ⟨?_, ?_⟩⟩
  · obtain ⟨es, hes⟩ := Node.exists_declares hlocated hn hm
    exact ⟨es, hes, ⟨_, _, String.append_assoc⟩, b.routes_iff _ _⟩
  · unfold Property.accessorLine
    split
    · exact ⟨"get", "GetObjectProperty<" ++ p.type ++ ">(nameof(" ++ p.name ++ "));", by
        simp [← String.toList_inj]⟩
    · exact ⟨word, "SetObjectProperty(nameof(" ++ p.name ++ "), value);", by
        simp [← String.toList_inj]⟩
  · simpa using b.routes_iff n.memberNames []

/-- A wrapped object with a method whose second parameter takes the name of the handle. -/
theorem routes_of_generate_captured :
    let source := "namespace App " ++ braced ("interface Box : JSObjectWrapper "
      ++ braced ("int put(int at, params int[] @_js); int size " ++ braced "get;"))
    ∃ text span header members, generate { propertyAccessors := true } source = .ok text ∧
      .interface span header members ∈ Node.all (File.read source).nodes ∧
      let n := Node.interface span header members
      n.memberNames = ["put", "size"] ∧ n.methods.map Method.call =
        ["return (int)_js.Invoke(nameof(put), at, @_js);"] ∧
      ∃ b, header.binding { propertyAccessors := true } = .ok b ∧
        ∀ m ∈ n.methods, ∃ es, m.Declares (Token.ofChars source.toList) es ∧
          let names := es.map fun e => e.name.text
          (b.Routes n.memberNames names ↔
            "_js" ∉ names.map plainName ∧ "_js" ∉ n.memberNames.map plainName ∧
              (b = .globalObject → "__js" ∉ n.memberNames.map plainName)) := by
  intro source
  obtain ⟨text, h⟩ : ∃ text, generate { propertyAccessors := true } source = .ok text :=
    exists_generate_of_isOk (by decide +kernel)
  have hbox : ((Node.all (File.read source).nodes).any fun n => n.memberNames == ["put", "size"]
      && n.methods.map Method.call == ["return (int)_js.Invoke(nameof(put), at, @_js);"]) = true := by
    decide +kernel
  obtain ⟨n, hn, hbox⟩ := List.any_eq_true.mp hbox
  simp only [Bool.and_eq_true, beq_iff_eq] at hbox
  cases n with
  | interface span header members =>
      obtain ⟨b, hb, -, hmethods, -⟩ := routes_of_generate h hn
      refine ⟨text, span, header, members, h, hn, hbox.1, hbox.2, b, hb, fun m hm => ?_⟩
      obtain ⟨es, hes, -, hroutes⟩ := hmethods m hm
      exact ⟨es, hes, hroutes⟩
  | _ => exact absurd hbox.2 (List.cons_ne_nil _ _).symm

/-- **Receivers are captured.**  A parameter, a method and a property that take the names of the handle and
of its cell are generated like all others, and no stub of these classes routes through the handle. -/
theorem receivers_are_captured :
    let parameter := "interface console : JSGlobalObject " ++ braced "void log(int _js);"
    let members := "interface console : JSGlobalObject " ++ braced ("void _js(); int __js " ++ braced "get;")
    (generate {} parameter).isOk = true ∧ (generate {} members).isOk = true ∧
      (File.read parameter).methods.map Method.call = ["_js.Invoke(nameof(log), _js);"] ∧
      (File.read parameter).methods.map (fun m => m.parameters.map Parameter.name) = [["_js"]] ∧
      (File.read members).nodes.map Node.memberNames = [["_js", "__js"]] ∧
      Binding.globalObject.receiver? ["log"] ["_js"] = some .parameter ∧
      Binding.globalObject.receiver? ["_js", "__js"] [] = none := by
  decide +kernel

end InteropStubs
