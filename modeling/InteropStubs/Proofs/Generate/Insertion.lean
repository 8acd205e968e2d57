import InteropStubs.Proofs.Generate.Bare
import InteropStubs.Proofs.Token.Twin
import Mathlib.Logic.Relation

/-!
# Trivia between declarations

Trivia that is put into a source between its declarations does not change what is generated
(`generate_insertion`), however often that is done (`generate_insertions`).

There is one condition, and it is about the end of the source. If that is inside a line comment, the first
line of the trivia goes on with the comment, so the lines below must make sense without it. A block comment of
two lines does not (`insertion_below_line`).
-/

namespace InteropStubs

open Token

variable {config : Config} {source source' text : String}

/-- Trivia is put into a source at a seam. -/
inductive Insertion (source source' : String) : Prop
  | intro {p : Nat} {X : List Char} (hp : (File.read source).Seam p) (hX : Trivia X)
      (hend : p = source.toList.length → EndsInLine (Lexeme.ofChars source.toList) → Trivia (belowLine X))
      (heq : source'.toList = source.toList.take p ++ X ++ source.toList.drop p)

/-- **Trivia between declarations** does not change what is generated. -/
theorem generate_insertion (h : generate config source = .ok text) (hinsertion : Insertion source source') :
    generate config source' = .ok text := by
  have hstubbed := isStubbed_of_generate h
  have hbroken := File.unbroken_of_isStubbed hstubbed
  cases hinsertion with
  | @intro p X hp hX hend heq =>
  refine generate_of_bare h ?_
  have hplace := hp.isSeam hstubbed
  refine (File.relabelled_of_twins hstubbed hplace ?_).bare hstubbed
  rw [heq]
  rcases hplace with rfl | ⟨-, hborder⟩
  · simpa using twins_append (File.ended_of_isStubbed hstubbed) hbroken hX (hend rfl)
  · rw [File.trees, Tree.tokensAll_ofTokens] at hborder
    exact twins_insert hborder hbroken hX

/-- **Any number of insertions** does not change what is generated. -/
theorem generate_insertions (h : generate config source = .ok text)
    (hinsertions : Relation.ReflTransGen Insertion source source') : generate config source' = .ok text := by
  induction hinsertions with
  | refl => exact h
  | tail _ hinsertion ih => exact generate_insertion ih hinsertion

/-- A comment that looks like code in front of a member of a namespace, and a directive at the end. -/
theorem generate_insertions_namespace :
    let source := "namespace N " ++ braced "using A;" ++ " // x"
    let between := "namespace N " ++ braced ("/*" ++ closeBrace ++ "*/using A;") ++ " // x"
    let source' := between ++ "#region x\n"
    let text := "\n".intercalate ["// <auto-generated />", "#nullable enable", "namespace N", openBrace, "    using A;",
      closeBrace, ""]
    generate {} source = .ok text ∧ Relation.ReflTransGen Insertion source source' ∧
      generate {} source' = .ok text := by
  intro source between source' text
  have htext : generate {} source = .ok text := by decide +kernel
  have hmember : ((Node.all (File.read source).nodes).any fun n => n.span.start == 14) = true := by decide +kernel
  have hfirst : Insertion source between := by
    obtain ⟨n, hn, hstart⟩ := List.any_eq_true.mp hmember
    have hseam : (File.read source).Seam 14 := beq_iff_eq.mp hstart ▸ .declaration hn
    have hcomment : Trivia ("/*" ++ closeBrace ++ "*/").toList := .block ['}'] (by decide) .nil
    exact .intro hseam hcomment (fun h => absurd h (by decide +kernel)) (by decide +kernel)
  have hsecond : Insertion between source' := by
    have hregion : Trivia "#region x\n".toList := .directive "#region x\n".toList (by decide +kernel) .nil
    exact .intro .stop hregion (fun _ _ => .blank (c := '\n') (by decide) .nil) (by decide +kernel)
  have hinsertions : Relation.ReflTransGen Insertion source source' := .tail (.single hfirst) hsecond
  exact ⟨htext, hinsertions, generate_insertions htext hinsertions⟩

/-- **Below a line comment** a block comment is not trivia: only its first line goes on with the line comment. -/
theorem insertion_below_line :
    let source := "using A; // x"
    (generate {} source).isOk = true ∧ (File.read source).Seam source.toList.length ∧
      ¬ ['*', '/'] <:+: ['\n'] ∧ Trivia "/*\n*/".toList ∧ (generate {} (source ++ "/*\n*/")).isOk = false :=
  ⟨by decide +kernel, .stop, by decide, .block ['\n'] (by decide) .nil, by decide +kernel⟩

end InteropStubs
