import InteropStubs.Proofs.Generate.Below
import InteropStubs.Proofs.Node.Alike
import InteropStubs.Proofs.Tree.WellNested

/-!
# Decorations

Whatever attributes, modifiers, type parameters and constraints are added to the declarations of a source, whatever
interface a method says that it implements and whatever its body is: what is generated stays the same, as long as the
source can be read (`generate_decorated`).
-/

namespace InteropStubs

variable {config : Config} {source source' text : String}

/-- The declarations of a source are decorated otherwise in another source. -/
def Decorates (source source' : String) : Prop :=
  ∃ runs', File.trees source' = runs'.flatten ∧ Node.Decorated .file (Tree.runs .file (File.trees source)) runs'

/-- **Decorations are dropped without trace.** -/
theorem generate_decorated (h : generate config source = .ok text) (hdecorates : Decorates source source')
    (haccepts : File.accepts source' = true) : generate config source' = .ok text := by
  have hviolations := (generate_eq_ok_iff.mp h).1
  obtain ⟨runs', htrees, hdecorated⟩ := hdecorates
  have hsound : Node.anyHasError (File.read source').nodes = false := by
    cases hparse : File.parse source' with
    | error diagnostic =>
        rw [File.accepts, hparse] at haccepts
        exact absurd haccepts Bool.false_ne_true
    | ok f =>
        obtain ⟨rfl, hsound⟩ := File.parse_eq_ok_iff.mp hparse
        exact hsound
  have hspelled' : Tree.Spelled runs'.flatten := htrees ▸ File.spelled_trees source'
  refine generate_of_bare h ?_
  change Node.anyHasError (Node.ofTrees (File.trees source')) = false at hsound
  change Node.bare (Node.ofTrees (File.trees source')) = Node.bare (Node.ofTrees (File.trees source))
  rw [htrees] at hsound ⊢
  exact Node.bare_ofTrees_of_decorated (File.spelled_trees source) hspelled'
    (fun k hk => ⟨Node.isStubbed_of_violations _ hviolations k hk, Node.hasOneBase_of_violations _ hviolations k hk⟩)
    hdecorated hsound

/-- An interface and a method that get an attribute, a modifier, type parameters, a constraint, an interface that is
implemented and a body. -/
theorem generate_decorated_generic :
    let source := "interface A:JSGlobalObject" ++ openBrace ++ "void f();" ++ closeBrace
    let source' := "[B]interface A<T>:JSGlobalObject where T:C" ++ openBrace ++ "public void E.f()=>g();" ++ closeBrace
    ∃ text, generate {} source = .ok text ∧ Decorates source source' ∧ File.accepts source' = true ∧
      generate {} source' = .ok text := by
  intro source source'
  let word (text : String) (start : Nat) : Token := ⟨.word, [], text, start, 0⟩
  let mark (text : String) (start : Nat) : Token := ⟨.mark, [], text, start, 0⟩
  let name (text : String) (start : Nat) : Token := ⟨.word, [.blank " "], text, start, 0⟩
  let m : MethodParts :=
    ⟨[], [.token (word "void" 27)], [], name "f" 32, [], mark "(" 33, [], mark ")" 34, [], [.token (mark ";" 35)],
      by decide +kernel⟩
  let m' : MethodParts :=
    ⟨[.token (word "public" 43)], [.token (name "void" 50)], [.token (name "E" 55), .token (mark "." 56)], word "f" 57,
      [], mark "(" 58, [], mark ")" 59, [],
      [.token (mark "=>" 60), .token (word "g" 62), .group .round (mark "(" 63) [] (.present (mark ")" 64)),
        .token (mark ";" 65)], by decide +kernel⟩
  let i : InterfaceParts :=
    ⟨[], word "interface" 0, name "A" 10, [], mark ":" 11, [.token (word "JSGlobalObject" 12)], [],
      [.group .curly (mark openBrace 26) m.trees (.present (mark closeBrace 36))], by decide +kernel⟩
  let i' : InterfaceParts :=
    ⟨[.group .square (mark "[" 0) [.token (word "B" 1)] (.present (mark "]" 2))], word "interface" 3, name "A" 13,
      [.token (mark "<" 14), .token (word "T" 15), .token (mark ">" 16)], mark ":" 17,
      [.token (word "JSGlobalObject" 18)],
      [.token (name "where" 33), .token (name "T" 39), .token (mark ":" 40), .token (word "C" 41)],
      [.group .curly (mark openBrace 42) m'.trees (.present (mark closeBrace 66))], by decide +kernel⟩
  have htrees : File.trees source = i.trees := by
    have htokens : Token.ofChars source.toList = Tree.tokensAll i.trees := by decide +kernel
    rw [File.trees, htokens, Tree.ofTokens_tokensAll (by decide +kernel)]
  have htrees' : File.trees source' = i'.trees := by
    have htokens : Token.ofChars source'.toList = Tree.tokensAll i'.trees := by decide +kernel
    rw [File.trees, htokens, Tree.ofTokens_tokensAll (by decide +kernel)]
  have hruns : Tree.runs .file i.trees = [i.trees] := Node.runs_singleton rfl (by decide +kernel)
  have hmembers : Tree.runs .body m.trees = [m.trees] := Node.runs_singleton rfl (by decide +kernel)
  have hmethod : Node.DecoratedSingle .body m.trees m'.trees := by
    refine .method (.word rfl .nil) (.token rfl rfl (by decide)) rfl ?_
    exact ⟨⟨fun t => { t with start := t.start + 25 }, fun _ => rfl, fun _ => rfl, fun _ _ _ _ => rfl⟩,
      fun _ _ => rfl, rfl⟩
  have hinterface : Node.DecoratedBlock i.trees i'.trees :=
    .interface (.attributes rfl .nil) rfl (.token rfl rfl (by decide))
  have hdecorates : Decorates source source' := by
    refine ⟨[i'.trees], by rw [htrees']; rfl, ?_⟩
    have hbody : Node.Decorated .body (Tree.runs .body (Node.bodyOf i.trees)) [m'.trees] := by
      change Node.Decorated .body (Tree.runs .body m.trees) _
      rw [hmembers]
      exact .single hmethod .nil
    rw [htrees, hruns]
    exact .block hinterface hbody rfl .nil
  have haccepts : File.accepts source' = true := by decide +kernel
  obtain ⟨text, h⟩ : ∃ text, generate {} source = .ok text := exists_generate_of_isOk (by decide +kernel)
  exact ⟨text, h, hdecorates, haccepts, generate_decorated h hdecorates haccepts⟩

end InteropStubs
