import InteropStubs.Proofs.Node.Reads

/-!
# Declared parameters

The entries of a parameter list are what the list declares, whether or not a method keeps them.
`ParameterEntry.Stands` says what an entry is made of, and `ParameterEntries` that a list of trees is
made of entries with commas between.

* `exists_entries`: a list that is read is made of entries, and the names that are kept are those of
  its entries, each once and in order. Only a collecting entry is lost where a comment or a directive
  stands between its name and the token behind it (`ParameterEntry.forwarded`).
-/

namespace InteropStubs

open Phrase Rule Reader

/-- An entry of a parameter list. -/
structure ParameterEntry where
  /-- Whether it is marked `params`. -/
  collecting : Bool
  name : Token
  /-- The token behind it: a comma, or the parenthesis that closes the list. -/
  behind : Token

variable {closing : Token} {ts rest : List Tree}

namespace ParameterEntry

/-- Whether an entry is passed on: trivia behind the name of a collecting entry hide it. -/
def forwarded (e : ParameterEntry) : Bool :=
  !(e.collecting && e.behind.afterTrivia)

/-- The names of the entries that are passed on, in order. -/
def forwardedNames (es : List ParameterEntry) : List String :=
  (es.filter forwarded).map fun e => e.name.text

/-- The token in front of which an entry ends that leaves some trees of a list. -/
def nextToken (closing : Token) (rest : List Tree) : Token :=
  (rest.head?.map Tree.head).getD closing

/-- An entry stands at the front of a list of trees, and `rest` is what is behind it. -/
inductive Stands (closing : Token) : List Tree → ParameterEntry → List Tree → Prop where
  /-- The word `params`, a type and a name. -/
  | collecting {ts us rest : List Tree} {mark name : Token}
      (attributes : ((), .token mark :: us) ∈ skip (many (rule .attributes)) ts)
      (marked : mark.isText "params" = true)
      (type : ((), .token name :: rest) ∈ skip (rule .type) us)
      (named : (TokenClass.nameBut []).holds name = true) :
      Stands closing ts ⟨true, name, nextToken closing rest⟩ rest
  /-- Modifiers and a type, a name, and its default value if it has one. -/
  | typed {ts us vs back rest : List Tree} {name : Token}
      (attributes : ((), us) ∈ skip (many (rule .attributes)) ts)
      (unmarked : us.head?.any (Tree.isText "params") = false)
      (modifiers : ((), vs) ∈ skip (many (passing <|> the "scoped")) us)
      (type : ((), .token name :: back) ∈ skip parameterType vs)
      (named : (TokenClass.nameBut []).holds name = true)
      (value : ((), rest) ∈ skip default back) :
      Stands closing ts ⟨false, name, nextToken closing rest⟩ rest
  /-- A name without a type, and its default value if it has one. -/
  | bare {ts back rest : List Tree} {name : Token}
      (attributes : ((), .token name :: back) ∈ skip (many (rule .attributes)) ts)
      (unmarked : name.isText "params" = false)
      (named : (TokenClass.nameBut Words.parameterStart).holds name = true)
      (value : ((), rest) ∈ skip default back) :
      Stands closing ts ⟨false, name, nextToken closing rest⟩ rest

end ParameterEntry

/-- A list of trees is made of entries with commas between, and `closing` is behind it. -/
inductive ParameterEntries (closing : Token) : List Tree → List ParameterEntry → Prop where
  | last {ts : List Tree} {e : ParameterEntry} (h : e.Stands closing ts []) :
      ParameterEntries closing ts [e]
  | more {ts rest : List Tree} {e : ParameterEntry} {es : List ParameterEntry} {comma : Token}
      (h : e.Stands closing ts (.token comma :: rest)) (hcomma : comma.isText "," = true)
      (hrest : ParameterEntries closing rest es) : ParameterEntries closing ts (e :: es)

/-- What is between two parentheses: nothing, or entries with commas between. -/
inductive ParameterList (closing : Token) : List Tree → List ParameterEntry → Prop where
  | empty : ParameterList closing [] []
  | entries {ts : List Tree} {es : List ParameterEntry} (h : ParameterEntries closing ts es) :
      ParameterList closing ts es

/-! ### One entry -/

theorem mem_skip_of_mem_text {p : Phrase} {written : String} (h : (written, rest) ∈ text p ts) :
    ((), rest) ∈ skip p ts :=
  mem_skip_iff.mpr (leaves_of_mem_text h)

/-- A name behind `params` is kept unless trivia follow it. -/
theorem name_of_mem_collectingParameter {kept : Option Parameter}
    (h : (kept, rest) ∈ collectingParameter closing ts) :
    ∃ name, ((), .token name :: rest) ∈ skip (rule .type) ts ∧
      (TokenClass.nameBut []).holds name = true ∧
      kept.map Parameter.name =
        if (ParameterEntry.nextToken closing rest).afterTrivia then none else some name.text := by
  obtain ⟨written, us, htype, h⟩ := mem_bind.mp h
  obtain ⟨name, vs, hname, h⟩ := mem_bind.mp h
  obtain ⟨following, ws, hfollowing, h⟩ := mem_bind.mp h
  obtain ⟨rfl, rfl⟩ := mem_peek.mp hfollowing
  have hkept : kept.map Parameter.name =
      (if (ParameterEntry.nextToken closing ws).afterTrivia then none else some name.text) ∧
      rest = ws := by
    split at h
    · next htrivia =>
      obtain ⟨rfl, hrest⟩ := mem_pure.mp h
      exact ⟨(if_pos htrivia).symm, hrest⟩
    · next htrivia =>
      obtain ⟨rfl, hrest⟩ := mem_pure.mp h
      exact ⟨(if_neg htrivia).symm, hrest⟩
  obtain ⟨hkept, rfl⟩ := hkept
  obtain ⟨rfl, hnamed⟩ := mem_nameBut.mp hname
  exact ⟨name, mem_skip_of_mem_text htype, hnamed, hkept⟩

/-- A parameter that is not collecting has a name behind a type, or a name alone. -/
theorem name_of_mem_typedParameter {p : Parameter} (h : (p, rest) ∈ typedParameter ts) :
    ∃ name : Token, p.name = name.text ∧
      ((∃ us, ((), us) ∈ skip (many (passing <|> the "scoped")) ts ∧
          ((), .token name :: rest) ∈ skip parameterType us ∧
          (TokenClass.nameBut []).holds name = true) ∨
        ts = .token name :: rest ∧ (TokenClass.nameBut Words.parameterStart).holds name = true) := by
  rcases mem_orElse.mp (mem_of_mem_longest h) with h | h
  · obtain ⟨_, us, hmodifiers, h⟩ := mem_bind.mp h
    obtain ⟨written, vs, htype, h⟩ := mem_bind.mp h
    obtain ⟨name, ws, hname, h⟩ := mem_bind.mp h
    obtain ⟨rfl, rfl⟩ := mem_pure.mp h
    obtain ⟨rfl, hnamed⟩ := mem_nameBut.mp hname
    exact ⟨name, rfl, .inl ⟨us, hmodifiers, mem_skip_of_mem_text htype, hnamed⟩⟩
  · obtain ⟨name, us, hname, h⟩ := mem_bind.mp h
    obtain ⟨rfl, rfl⟩ := mem_pure.mp h
    obtain ⟨rfl, hnamed⟩ := mem_nameBut.mp hname
    exact ⟨name, rfl, .inr ⟨rfl, hnamed⟩⟩

/-- **One entry.**  What is read as a parameter is an entry, and its name is kept if the entry is
passed on. -/
theorem exists_stands {kept : Option Parameter} (h : (kept, rest) ∈ parameter closing ts) :
    ∃ e : ParameterEntry, e.Stands closing ts rest ∧
      kept.map Parameter.name = if e.forwarded then some e.name.text else none := by
  obtain ⟨_, us, hattributes, h⟩ := mem_bind.mp h
  obtain ⟨marked, vs, hmarked, h⟩ := mem_bind.mp h
  obtain ⟨hmark, rfl⟩ := mem_next.mp hmarked
  cases marked with
  | true =>
      obtain ⟨_, us, hskip, h⟩ := mem_bind.mp h
      obtain ⟨name, htype, hnamed, hkept⟩ := name_of_mem_collectingParameter h
      obtain ⟨mark, rfl, hparams⟩ := leaves_one.mp (mem_skip_iff.mp hskip)
      refine ⟨_, .collecting hattributes hparams htype hnamed, hkept.trans ?_⟩
      cases htrivia : (ParameterEntry.nextToken closing rest).afterTrivia <;>
        simp [ParameterEntry.forwarded, htrivia]
  | false =>
      obtain ⟨p, back, hp, h⟩ := mem_bind.mp h
      obtain ⟨_, ws, hvalue, h⟩ := mem_bind.mp h
      obtain ⟨rfl, rfl⟩ := mem_pure.mp h
      obtain ⟨name, hname, ⟨us, hmodifiers, htype, hnamed⟩ | ⟨rfl, hnamed⟩⟩ :=
        name_of_mem_typedParameter hp
      · exact ⟨_, .typed hattributes hmark.symm hmodifiers htype hnamed hvalue, congrArg some hname⟩
      · exact ⟨_, .bare hattributes hmark.symm hnamed hvalue, congrArg some hname⟩

/-! ### All entries -/

/-- An entry in front of others: its name is in front of theirs if it is passed on. -/
theorem map_name_cons {kept : Option Parameter} {others : List (Option Parameter)}
    {e : ParameterEntry} {es : List ParameterEntry}
    (hname : kept.map Parameter.name = if e.forwarded then some e.name.text else none)
    (hothers : (others.filterMap id).map Parameter.name = ParameterEntry.forwardedNames es) :
    ((kept :: others).filterMap id).map Parameter.name =
      ParameterEntry.forwardedNames (e :: es) := by
  cases hf : e.forwarded <;> cases kept <;> simp_all [ParameterEntry.forwardedNames]

theorem exists_entries_of_mem_separated {bound : Nat} {kept : List (Option Parameter)}
    (h : (kept, []) ∈ separated (parameter closing) bound ts) :
    ∃ es, ParameterEntries closing ts es ∧
      (kept.filterMap id).map Parameter.name = ParameterEntry.forwardedNames es := by
  induction bound generalizing ts kept with
  | zero => exact absurd h List.not_mem_nil
  | succ bound ih =>
      obtain ⟨p, left, hp, h⟩ := mem_separated_succ h
      obtain ⟨e, he, hname⟩ := exists_stands hp
      rcases h with ⟨rfl, rfl⟩ | ⟨comma, more, others, rfl, hcomma, hothers, rfl⟩
      · exact ⟨[e], .last he, map_name_cons hname rfl⟩
      · obtain ⟨es, hes, hnames⟩ := ih hothers
        exact ⟨e :: es, .more he hcomma hes, map_name_cons hname hnames⟩

/-- **All entries.**  What is between two parentheses is made of entries, and the names that are kept
are those of the entries that are passed on, in order. -/
theorem exists_entries {inner : List Tree} {ps : List Parameter}
    (h : parameters? inner closing = some ps) :
    ∃ es, ParameterList closing inner es ∧
      ps.map Parameter.name = ParameterEntry.forwardedNames es := by
  unfold parameters? at h
  split at h
  · obtain rfl := Option.some.inj h
    exact ⟨[], .empty, rfl⟩
  · obtain ⟨kept, hkept, rfl⟩ := Option.map_eq_some_iff.mp h
    obtain ⟨es, hes, hnames⟩ := exists_entries_of_mem_separated (mem_of_whole? hkept)
    exact ⟨es, .entries hes, hnames⟩

/-- **The entries of a method.** -/
theorem exists_entries_of_mem_method {m : Method} (h : (m, rest) ∈ Reader.method ts) :
    ∃ opening inner closing es,
      .group .round opening inner (.present closing) ∈ ts ∧
      m.parameterList = Tree.verbatim [.group .round opening inner (.present closing)] ∧
      ParameterList closing inner es ∧
      m.parameters.map Parameter.name =
        ParameterEntry.forwardedNames es := by
  obtain ⟨⟨returns, name⟩, us, hhead, h⟩ := mem_bind.mp h
  obtain ⟨_, vs, hskip, h⟩ := mem_bind.mp h
  obtain ⟨⟨list, inner, closing⟩, ws, hgroup, h⟩ := mem_bind.mp h
  obtain ⟨ps, xs, hgiven, h⟩ := mem_bind.mp h
  obtain ⟨_, ys, -, h⟩ := mem_bind.mp h
  obtain ⟨rfl, rfl⟩ := mem_pure.mp h
  obtain ⟨hps, rfl⟩ := mem_given.mp hgiven
  obtain ⟨opening, rfl, rfl⟩ := mem_group.mp hgroup
  obtain ⟨es, hes, hnames⟩ := exists_entries hps
  have hends := (LeavesEnd.skip _ _ _ _ hskip).trans (LeavesEnd.memberHead _ _ _ hhead)
  exact ⟨opening, inner, closing, es, hends.subset List.mem_cons_self, rfl, hes, hnames⟩

end InteropStubs
