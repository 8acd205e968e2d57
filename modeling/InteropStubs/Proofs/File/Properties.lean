import InteropStubs.Proofs.File.Location
import InteropStubs.Proofs.Generate.Below
import InteropStubs.Proofs.Generate.Receiver
import InteropStubs.Proofs.Node.AccessorWords

/-!
# The accessors of a file

Every property of an accepted file was read from a run of its tokens that is a property, and what is kept of its
accessors are those words of theirs that are `get`, `set` or `init`, in order and with repetitions
(`accessors_of_parse`). Neither the attributes, modifiers and comments in front of a word nor what is in the bodies
and in the value behind the braces has a part in it, even where it is spelled alike.
-/

namespace InteropStubs

/-- Words are not spelled like marks in what a node was read from. -/
theorem File.spelled_of_infix {source : String} {run : List Tree}
    (h : Tree.tokensAll run <:+: Token.ofChars source.toList) : Tree.Spelled run := by
  intro t ht
  refine File.spelled_trees source t ?_
  rw [File.trees, Tree.tokensAll_ofTokens]
  exact h.subset ht

/-- **Accessors are read from their own word.**  A property of an accepted file was read from a run that is a
property, with the name that is kept. The run is a property in one way only, and the words of its accessors are
what stands directly in front of their bodies. Those of them that are `get`, `set` or `init` are kept, in order. -/
theorem accessors_of_parse {source : String} {f : File} (h : File.parse source = .ok f) :
    ∀ span p, .property span p ∈ Node.all f.nodes → ∃ run name inner words,
      Tree.tokensAll run <:+: Token.ofChars source.toList ∧ span = Node.spanOf run ∧ p.name = name.text ∧
      PropertyForm run name inner words ∧ Tree.beforeBodies none inner = words.map .token ∧
      p.accessors = (words.map Token.text).filter (fun text => text ∈ ["get", "set", "init"]) ∧
      ∀ name' inner' words', PropertyForm run name' inner' words' →
        name' = name ∧ inner' = inner ∧ words' = words := by
  intro span p hp
  obtain ⟨rfl, hsound⟩ := File.parse_eq_ok_iff.mp h
  have hlocated := Node.located_ofTrees hsound
  rw [Tree.tokensAll_ofTokens] at hlocated
  obtain ⟨run, hrun, hread⟩ := hlocated.runs _ hp
  have hspelled := File.spelled_of_infix hrun
  obtain ⟨name, inner, words, hform, hname, haccessors⟩ := exists_propertyForm hread.keeps
  have hkept : (fun text => decide (text ∈ ["get", "set", "init"])) = accessorWords.contains := by
    funext text
    rw [accessorWords, List.contains_eq_mem]
  refine ⟨run, name, inner, words, hrun, hread.span, hname, hform,
    hform.accessors.beforeBodies_eq (hform.spelled_accessors hspelled), hkept ▸ haccessors, ?_⟩
  exact fun name' inner' words' hform' => hform'.unique hform hspelled

/-- Attributes, modifiers, a comment, other words and all kinds of bodies, and a value behind the braces. -/
theorem accessors_of_parse_crowded :
    let source := "interface A : B " ++ braced ("int P "
      ++ braced ("[D] get " ++ braced ("set(); " ++ braced "get();")
        ++ " /* set */ @get; add; protected set => get + init; set;")
      ++ " = get; int Q => get;")
    ∃ f, File.parse source = .ok f ∧ ∃ span, .property span ⟨"P", "int", ["get", "set", "set"]⟩ ∈ Node.all f.nodes ∧
      ∃ run name inner words, Tree.tokensAll run <:+: Token.ofChars source.toList ∧
        PropertyForm run name inner words ∧
        (words.map Token.text).filter (fun text => text ∈ ["get", "set", "init"]) = ["get", "set", "set"] := by
  intro source
  have hparse : File.parse source = .ok (File.read source) := by
    refine File.parse_eq_ok_iff.mpr ⟨rfl, ?_⟩
    decide +kernel
  have hkept : ⟨"P", "int", ["get", "set", "set"]⟩ ∈ (Node.all (File.read source).nodes).filterMap Node.property? := by
    decide +kernel
  obtain ⟨n, hn, hp⟩ := List.mem_filterMap.mp hkept
  cases n <;> simp only [Node.property?, reduceCtorEq, Option.some.injEq] at hp
  subst hp
  obtain ⟨run, name, inner, words, hrun, -, -, hform, -, haccessors, -⟩ := accessors_of_parse hparse _ _ hn
  exact ⟨_, hparse, _, hn, run, name, inner, words, hrun, hform, haccessors.symm⟩

end InteropStubs
