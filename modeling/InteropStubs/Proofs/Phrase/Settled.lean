import InteropStubs.Proofs.Phrase.Forks
import InteropStubs.Proofs.Token.Spelling

/-!
# Names and where they can be cut

What a qualified name takes is settled: behind its last type arguments there are words, points and the mark behind an
alias only (`Phrase.settles_qualifiedNameBut`).
-/

namespace InteropStubs

open Phrase Rule

namespace Token

variable {ts us : List Token} {t : Token}

theorem Settled.nil : Settled [] :=
  ⟨[], [], rfl, fun _ ht => absurd ht (Option.not_mem_none _), fun _ ht => absurd ht List.not_mem_nil⟩

/-- Plain tokens are settled. -/
theorem settled_of_isPlain (h : ∀ t ∈ ts, t.IsPlain) : Settled ts :=
  ⟨[], ts, rfl, fun _ ht => absurd ht (Option.not_mem_none _), h⟩

/-- What ends with a semicolon or a closing angle bracket. -/
theorem settled_concat (ts : List Token) (ht : t.isText ";" = true ∨ t.isText ">" = true) : Settled (ts ++ [t]) := by
  refine ⟨ts ++ [t], [], (List.append_nil _).symm, fun u hu => ?_, fun _ hu => absurd hu List.not_mem_nil⟩
  rw [List.getLast?_concat] at hu
  obtain rfl := Option.some.inj hu
  exact ht

/-- Settled tokens behind settled tokens are settled. -/
theorem Settled.append (hts : Settled ts) (hus : Settled us) : Settled (ts ++ us) := by
  obtain ⟨front, back, rfl, hfront, hback⟩ := hts
  obtain ⟨front', back', rfl, hfront', hback'⟩ := hus
  rcases front'.eq_nil_or_concat with rfl | ⟨front', t, rfl⟩
  · exact ⟨front, back ++ back', by simp, hfront, List.forall_mem_append.mpr ⟨hback, hback'⟩⟩
  · rw [List.concat_eq_append] at hfront' ⊢
    refine ⟨front ++ back ++ (front' ++ [t]), back', by simp, fun u hu => hfront' u ?_, hback'⟩
    rwa [← List.append_assoc, List.getLast?_concat, ← List.getLast?_concat] at hu

/-- A name is plain. -/
theorem isPlain_of_holds {keywords : List String} (h : (TokenClass.nameBut keywords).holds t = true) : t.IsPlain := by
  obtain ⟨hkind, -⟩ := Bool.and_eq_true_iff.mp h
  exact .inl (beq_iff_eq.mp hkind)

/-- A dot is plain, and so are colons. -/
theorem isPlain_of_isText (h : t.isText "." = true ∨ t.isText "::" = true) : t.IsPlain := by
  simp only [isText, Bool.and_eq_true, Bool.or_eq_true, beq_iff_eq] at h
  rcases h with ⟨hkind | hkind, htext⟩ | ⟨hkind | hkind, htext⟩
  · exact .inl hkind
  · exact .inr ⟨hkind, .inl htext⟩
  · exact .inl hkind
  · exact .inr ⟨hkind, .inr htext⟩

end Token

namespace Phrase

open Token (Settled)

/-- Some trees in front of others have settled tokens. -/
def Settles (ts rest : List Tree) : Prop :=
  ∃ front, ts = front ++ rest ∧ Settled (Tree.tokensAll front)

variable {fuel : Nat} {keywords : List String} {ts mid rest : List Tree} {t : Token}

namespace Settles

theorem refl (ts : List Tree) : Settles ts ts :=
  ⟨[], rfl, .nil⟩

/-- Trees with settled tokens behind such trees have settled tokens. -/
theorem trans (hfirst : Settles ts mid) (hsecond : Settles mid rest) : Settles ts rest := by
  obtain ⟨front, rfl, hfront⟩ := hfirst
  obtain ⟨back, rfl, hback⟩ := hsecond
  refine ⟨front ++ back, (List.append_assoc ..).symm, ?_⟩
  rw [Tree.tokensAll_append]
  exact hfront.append hback

theorem cons (ht : t.IsPlain) : Settles (.token t :: rest) rest :=
  ⟨[.token t], rfl, Token.settled_of_isPlain (List.forall_mem_singleton.mpr ht)⟩

end Settles

/-- A name that is taken has settled tokens. -/
theorem settles_nameBut (h : Leaves fuel (nameBut keywords) ts rest) : Settles ts rest := by
  obtain ⟨t, rfl, ht⟩ := leaves_one.mp h
  exact .cons (Token.isPlain_of_holds ht)

/-- So has a dot, and so have colons. -/
theorem settles_the {text : String} (htext : text = "." ∨ text = "::") (h : Leaves fuel (the text) ts rest) :
    Settles ts rest := by
  obtain ⟨t, rfl, ht⟩ := leaves_one.mp h
  refine .cons (Token.isPlain_of_isText ?_)
  rcases htext with rfl | rfl
  · exact .inl ht
  · exact .inr ht

/-- Type arguments end with an angle bracket. -/
theorem settles_typeArguments (h : Leaves fuel (rule .typeArguments) ts rest) : Settles ts rest := by
  obtain ⟨less, rfl, hlist⟩ := exists_of_leaves_rule h
  obtain ⟨mid, hfirst, hlast⟩ := leaves_andThen.mp hlist
  obtain ⟨t, rfl, ht⟩ := leaves_one.mp hlast
  obtain ⟨front, rfl⟩ := hfirst.suffix
  refine ⟨front ++ [.token t], by simp, ?_⟩
  rw [Tree.tokensAll_append]
  exact Token.settled_concat _ (.inr ht)

/-- So has a simple name. -/
theorem settles_simpleNameBut (h : Leaves fuel (simpleNameBut keywords) ts rest) : Settles ts rest := by
  obtain ⟨mid, hname, harguments⟩ := leaves_andThen.mp h
  rcases leaves_optional.mp harguments with harguments | rfl
  · exact (settles_nameBut hname).trans (settles_typeArguments harguments)
  · exact settles_nameBut hname

/-- **What a qualified name takes is settled.** -/
theorem settles_qualifiedNameBut (h : Leaves fuel (qualifiedNameBut keywords) ts rest) : Settles ts rest := by
  obtain ⟨mid, hfirst, hmore⟩ := leaves_andThen.mp h
  have hfront : Settles ts mid := by
    rcases leaves_orElse.mp hfirst with halias | hname
    · obtain ⟨_, hstart, hname⟩ := leaves_andThen.mp halias
      obtain ⟨_, hword, hmark⟩ := leaves_andThen.mp hstart
      exact ((settles_nameBut hword).trans (settles_the (.inr rfl) hmark)).trans (settles_simpleNameBut hname)
    · exact settles_simpleNameBut hname
  refine hfront.trans (many_of_trans .refl .trans (fun ts rest hl => ?_) _ _ hmore)
  obtain ⟨_, hpoint, hname⟩ := leaves_andThen.mp hl
  exact (settles_the (.inl rfl) hpoint).trans (settles_simpleNameBut hname)

/-- A qualified name begins with a word. -/
theorem exists_word_of_qualifiedNameBut (h : Leaves fuel (qualifiedNameBut keywords) ts rest) :
    ∃ t us, ts = .token t :: us ∧ t.kind = .word := by
  have hword {ts rest : List Tree} (h : Leaves fuel (nameBut keywords) ts rest) :
      ∃ t us, ts = .token t :: us ∧ t.kind = .word := by
    obtain ⟨t, rfl, ht⟩ := leaves_one.mp h
    exact ⟨t, rest, rfl, beq_iff_eq.mp (Bool.and_eq_true_iff.mp ht).1⟩
  obtain ⟨mid, hfirst, -⟩ := leaves_andThen.mp h
  rcases leaves_orElse.mp hfirst with halias | hname
  · obtain ⟨_, hstart, -⟩ := leaves_andThen.mp halias
    obtain ⟨_, hstart, -⟩ := leaves_andThen.mp hstart
    exact hword hstart
  · obtain ⟨_, hstart, -⟩ := leaves_andThen.mp hname
    exact hword hstart

/-- A name begins with a word. -/
theorem kind_eq_word_of_qualifiedNameBut (h : Leaves fuel (qualifiedNameBut keywords) (ts ++ rest) rest) :
    ∀ t ∈ (Tree.tokensAll ts).head?, t.kind = .word := by
  intro t ht
  obtain ⟨u, us, heq, hu⟩ := exists_word_of_qualifiedNameBut h
  cases ts with
  | nil => simp at ht
  | cons v ts =>
      rw [List.cons_append] at heq
      obtain rfl := (List.cons.inj heq).1
      obtain rfl : u = t := by simpa [Tree.tokens] using ht
      exact hu

end Phrase

end InteropStubs
