import InteropStubs.Node.Reader

/-!
# Readings

A `Reader` is a relation between what it reads, the value that it makes of it and what it leaves. This
module says of each reader, and of each way of putting readers together, what its readings are
(`mem_…`), and that what is left is always an end of what was there (`Reader.LeavesEnd`).

The last section follows the bodies of declarations: what a declaration has in its body was inside one
of the groups that the declaration is made of.
-/

namespace InteropStubs.Reader

open Phrase Rule

variable {α β : Type} {ts rest : List Tree}

/-! ### Readings of the parts -/

@[simp] theorem mem_pure {a b : α} : (a, rest) ∈ (pure b : Reader α) ts ↔ a = b ∧ rest = ts := by
  show (a, rest) ∈ [(b, ts)] ↔ _
  simp

/-- What two readers one after the other read: something in between is left by the one and found by the other. -/
@[simp] theorem mem_bind {r : Reader α} {f : α → Reader β} {b : β} :
    (b, rest) ∈ (r >>= f) ts ↔ ∃ a mid, (a, mid) ∈ r ts ∧ (b, rest) ∈ f a mid := by
  show (b, rest) ∈ (r ts).flatMap (fun a => f a.1 a.2) ↔ _
  simp [List.mem_flatMap]

/-- One of two readers reads. -/
@[simp] theorem mem_orElse {r s : Reader α} {a : α} :
    (a, rest) ∈ (r <|> s) ts ↔ (a, rest) ∈ r ts ∨ (a, rest) ∈ s ts := by
  show (a, rest) ∈ r ts ++ s ts ↔ _
  simp

/-- To skip a phrase is to leave what is behind one of its sizes. -/
@[simp] theorem mem_skip {p : Phrase} {u : Unit} :
    (u, rest) ∈ skip p ts ↔ ∃ n ∈ p.sizes ts, rest = ts.drop n := by
  simp [skip, eq_comm]

/-- The text of a phrase is that of the trees that are left out. -/
@[simp] theorem mem_text {p : Phrase} {a : String} :
    (a, rest) ∈ text p ts ↔
      ∃ n ∈ p.sizes ts, a = Tree.verbatim (ts.take n) ∧ rest = ts.drop n := by
  show (a, rest) ∈ (take p ts).flatMap (fun (trees, rest) => [(Tree.verbatim trees, rest)]) ↔ _
  simp only [take, List.mem_flatMap, List.mem_map, List.splitAt_eq, Prod.exists, List.mem_singleton,
    Prod.mk.injEq]
  constructor
  · rintro ⟨_, _, ⟨n, hn, rfl, rfl⟩, rfl, rfl⟩; exact ⟨n, hn, rfl, rfl⟩
  · rintro ⟨n, hn, rfl, rfl⟩; exact ⟨_, _, ⟨n, hn, rfl, rfl⟩, rfl, rfl⟩

/-- A name is one token at the front. -/
@[simp] theorem mem_nameBut {keywords : List String} {t : Token} :
    (t, rest) ∈ nameBut keywords ts ↔
      ts = .token t :: rest ∧ (TokenClass.nameBut keywords).holds t = true := by
  unfold nameBut
  split
  · next u rest' =>
    cases h : (TokenClass.nameBut keywords).holds u with
    | true =>
        simp only [if_true, List.mem_singleton, Prod.mk.injEq, List.cons.injEq, Tree.token.injEq]
        constructor
        · rintro ⟨rfl, rfl⟩; exact ⟨⟨rfl, rfl⟩, h⟩
        · rintro ⟨⟨rfl, rfl⟩, -⟩; exact ⟨rfl, rfl⟩
    | false =>
        simp only [Bool.false_eq_true, if_false, List.not_mem_nil, List.cons.injEq,
          Tree.token.injEq, false_iff]
        rintro ⟨⟨rfl, rfl⟩, hu⟩
        exact Bool.false_ne_true (h.symm.trans hu)
  · next hno =>
    simp only [List.not_mem_nil, false_iff]
    rintro ⟨rfl, -⟩
    exact hno _ _ rfl

/-- A group is one closed tree at the front. -/
@[simp] theorem mem_group {b : Bracket} {g : Tree} {inner : List Tree} {closing : Token} :
    ((g, inner, closing), rest) ∈ group b ts ↔
      ∃ opening, g = .group b opening inner (.present closing) ∧ ts = g :: rest := by
  unfold group
  split
  · next bracket opening inner' closing' rest' =>
    by_cases h : bracket = b
    · subst h
      simp only [if_true, List.mem_singleton, Prod.mk.injEq, List.cons.injEq]
      constructor
      · rintro ⟨⟨rfl, rfl, rfl⟩, rfl⟩; exact ⟨opening, rfl, rfl, rfl⟩
      · rintro ⟨o, rfl, h, rfl⟩; injection h; simp_all
    · simp only [h, if_false, List.not_mem_nil, List.cons.injEq, false_iff]
      rintro ⟨o, rfl, hg, -⟩; injection hg; contradiction
  · next hno =>
    simp only [List.not_mem_nil, false_iff]
    rintro ⟨o, rfl, rfl⟩
    exact hno _ _ _ _ _ rfl

@[simp] theorem mem_peek {t : Option Tree} : (t, rest) ∈ peek ts ↔ t = ts.head? ∧ rest = ts := by
  simp [peek]

/-- To ask for a mark reads nothing. -/
@[simp] theorem mem_next {mark : String} {b : Bool} :
    (b, rest) ∈ next mark ts ↔ b = ts.head?.any (Tree.isText mark) ∧ rest = ts := by
  unfold next
  simp only [mem_bind, mem_peek, mem_pure]
  constructor
  · rintro ⟨_, _, ⟨rfl, rfl⟩, rfl, rfl⟩; exact ⟨rfl, rfl⟩
  · rintro ⟨rfl, rfl⟩; exact ⟨_, _, ⟨rfl, rfl⟩, rfl, rfl⟩

/-- What is given is read without anything. -/
@[simp] theorem mem_given {o : Option α} {a : α} :
    (a, rest) ∈ given o ts ↔ o = some a ∧ rest = ts := by
  cases o <;> simp [given, eq_comm]

/-- A reading of a whole list. -/
theorem mem_of_whole? {r : Reader α} {a : α} (h : whole? r ts = some a) : (a, []) ∈ r ts := by
  obtain ⟨⟨b, rest⟩, hfind, rfl⟩ := Option.map_eq_some_iff.mp h
  have hempty : rest = [] := by simpa using List.find?_some hfind
  exact hempty ▸ List.mem_of_find?_eq_some hfind

/-- The longest reading is a reading. -/
theorem mem_of_mem_longest {r : Reader α} {a : α} (h : (a, rest) ∈ longest r ts) :
    (a, rest) ∈ r ts :=
  List.mem_of_find?_eq_some (Option.mem_toList.mp h)

/-! ### Heads of members -/

/-- What is behind the name of a method. -/
def methodRest (head : String × String) : Reader Method := do
  skip methodTypeParameters
  let (list, inner, closing) ← group .round
  let parameters ← given (parameters? inner closing)
  skip (constraints ++ rule .body)
  return ⟨head.2, head.1, parameters, Tree.verbatim [list]⟩

/-- What is behind the name of a property. -/
def propertyRest (head : String × String) : Reader Property := do
  if ← next "=>" then
    skip arrowBody
    return ⟨head.2, head.1, []⟩
  else
    let (_, inner, _) ← group .curly
    let accessors ← given (accessors? inner)
    skip (Phrase.optional initialValue)
    return ⟨head.2, head.1, accessors⟩

/-- A method is the head of a member and what makes it a method. -/
theorem method_eq : method = memberHead >>= methodRest := rfl

/-- A property is the head of a member and what makes it a property. -/
theorem property_eq : property = memberHead >>= propertyRest := rfl

/-! ### What readings leave -/

/-- All readings leave an end of the list. -/
def LeavesEnd (r : Reader α) : Prop :=
  ∀ (ts : List Tree) (a : α) (rest : List Tree), (a, rest) ∈ r ts → rest <:+ ts

namespace LeavesEnd

theorem pure (a : α) : LeavesEnd (Pure.pure a : Reader α) := fun _ _ _ h =>
  (mem_pure.mp h).2 ▸ List.suffix_rfl

/-- Readers one after the other leave an end. -/
theorem bind {r : Reader α} {f : α → Reader β} (hr : LeavesEnd r) (hf : ∀ a, LeavesEnd (f a)) :
    LeavesEnd (r >>= f) := fun _ _ _ h => by
  obtain ⟨a, mid, ha, hb⟩ := mem_bind.mp h
  exact (hf a _ _ _ hb).trans (hr _ _ _ ha)

/-- A phrase leaves an end. -/
theorem skip (p : Phrase) : LeavesEnd (Reader.skip p) := fun ts _ _ h => by
  obtain ⟨n, -, rfl⟩ := mem_skip.mp h
  exact List.drop_suffix n ts

theorem text (p : Phrase) : LeavesEnd (Reader.text p) := fun ts _ _ h => by
  obtain ⟨n, -, -, rfl⟩ := mem_text.mp h
  exact List.drop_suffix n ts

theorem nameBut (keywords : List String) : LeavesEnd (Reader.nameBut keywords) := fun _ _ _ h => by
  obtain ⟨rfl, -⟩ := mem_nameBut.mp h
  exact List.suffix_cons _ _

theorem group (b : Bracket) : LeavesEnd (Reader.group b) := fun _ ⟨g, inner, closing⟩ _ h => by
  obtain ⟨opening, -, rfl⟩ := mem_group.mp h
  exact List.suffix_cons _ _

theorem peek : LeavesEnd Reader.peek := fun _ _ _ h => (mem_peek.mp h).2 ▸ List.suffix_rfl

theorem next (mark : String) : LeavesEnd (Reader.next mark) := fun _ _ _ h =>
  (mem_next.mp h).2 ▸ List.suffix_rfl

/-- Things between commas leave an end. -/
theorem separated {r : Reader α} (hr : LeavesEnd r) (bound : Nat) :
    LeavesEnd (Reader.separated r bound) := by
  induction bound with
  | zero => exact fun _ _ _ h => absurd h List.not_mem_nil
  | succ bound ih =>
      refine hr.bind fun a => (next ",").bind fun more => ?_
      cases more with
      | true => exact (skip _).bind fun _ => ih.bind fun _ => pure _
      | false => exact pure _

theorem orElse {r s : Reader α} (hr : LeavesEnd r) (hs : LeavesEnd s) : LeavesEnd (r <|> s) :=
  fun _ _ _ h => (mem_orElse.mp h).elim (hr _ _ _) (hs _ _ _)

theorem longest {r : Reader α} (hr : LeavesEnd r) : LeavesEnd (Reader.longest r) :=
  fun _ _ _ h => hr _ _ _ (mem_of_mem_longest h)

theorem given (o : Option α) : LeavesEnd (Reader.given o) := fun _ _ _ h =>
  (mem_given.mp h).2 ▸ List.suffix_rfl

/-- A parameter leaves an end. -/
theorem parameter (closing : Token) : LeavesEnd (Reader.parameter closing) := by
  refine (skip _).bind fun _ => (next _).bind fun marked => ?_
  cases marked with
  | true =>
      refine (skip _).bind fun _ => (text _).bind fun _ => (nameBut _).bind fun _ => peek.bind fun _ => ?_
      dsimp only
      split <;> exact pure _
  | false =>
      refine ((longest ?_).bind fun _ => (skip _).bind fun _ => pure _)
      exact orElse ((skip _).bind fun _ => (text _).bind fun _ => (nameBut _).bind fun _ => pure _)
        ((nameBut _).bind fun _ => pure _)

/-- An accessor leaves an end. -/
theorem accessor : LeavesEnd Reader.accessor :=
  (skip _).bind fun _ => (nameBut _).bind fun _ => (skip _).bind fun _ => pure _

/-- The head of a member leaves an end. -/
theorem memberHead : LeavesEnd Reader.memberHead :=
  (skip _).bind fun _ => (text _).bind fun _ => (skip _).bind fun _ => (nameBut _).bind fun _ => pure _

theorem trees : LeavesEnd Reader.bases.trees := fun ts _ _ h => by
  obtain ⟨-, rfl⟩ := Prod.mk.inj (List.mem_singleton.mp h)
  exact List.suffix_rfl

/-- The bases of an interface leave an end. -/
theorem bases : LeavesEnd Reader.bases := by
  refine (next ":").bind fun more => ?_
  cases more with
  | false => exact pure _
  | true =>
      rw [if_pos rfl]
      refine (skip _).bind fun _ => trees.bind fun trees =>
        ((text _).separated _).bind fun types => peek.bind fun t => ?_
      split
      · exact (text _).bind fun _ => pure _
      · exact pure _

end LeavesEnd

/-! ### Bodies -/

/-- A list of trees is empty, or it is what a group of another list holds. -/
def Inside (inner ts : List Tree) : Prop :=
  inner = [] ∨ ∃ b opening closing, .group b opening inner closing ∈ ts

/-- The list is empty, or it is what a closed group in braces holds. -/
def Braced (inner ts : List Tree) : Prop :=
  inner = [] ∨ ∃ opening closing, .group .curly opening inner (.present closing) ∈ ts

/-- What is in braces of some trees is inside of them. -/
theorem Braced.inside {inner ts : List Tree} (h : Braced inner ts) : Inside inner ts :=
  h.imp_right fun ⟨opening, closing, hg⟩ => ⟨.curly, opening, .present closing, hg⟩

/-- What is in braces of an end of some trees is in braces of them. -/
theorem Braced.of_suffix {inner ts us : List Tree} (h : Braced inner ts) (hs : ts <:+ us) :
    Braced inner us :=
  h.imp_right fun ⟨opening, closing, hg⟩ => ⟨opening, closing, hs.subset hg⟩

/-- The inside of a group in braces is in braces. -/
theorem braced_of_mem_group {g : Tree} {inner : List Tree} {closing : Token}
    (h : ((g, inner, closing), rest) ∈ group .curly ts) : Braced inner ts := by
  obtain ⟨opening, rfl, rfl⟩ := mem_group.mp h
  exact .inr ⟨opening, closing, List.mem_cons_self⟩

/-- The body at the end of a type is in braces. -/
theorem braced_of_mem_typeEnd {inner : List Tree} (h : (inner, rest) ∈ typeEnd ts) :
    Braced inner ts := by
  obtain ⟨more, mid, hmore, h⟩ := mem_bind.mp h
  have hmid := LeavesEnd.next _ _ _ _ hmore
  cases more with
  | true =>
      obtain ⟨_, _, _, h⟩ := mem_bind.mp h
      exact .inl (mem_pure.mp h).1
  | false =>
      obtain ⟨⟨g, inner', closing⟩, after, hgroup, h⟩ := mem_bind.mp h
      obtain ⟨_, _, _, h⟩ := mem_bind.mp h
      obtain ⟨rfl, -⟩ := mem_pure.mp h
      exact (braced_of_mem_group hgroup).of_suffix hmid

/-- **The body of a namespace** was in one of its groups. -/
theorem braced_of_mem_namespaceBlock {name : String} {inner : List Tree}
    (h : ((name, inner), rest) ∈ namespaceBlock ts) : Braced inner ts := by
  obtain ⟨_, ts₁, h₁, h⟩ := mem_bind.mp h
  obtain ⟨_, ts₂, h₂, h⟩ := mem_bind.mp h
  obtain ⟨⟨g, inner', closing⟩, ts₃, h₃, h⟩ := mem_bind.mp h
  obtain ⟨_, ts₄, h₄, h⟩ := mem_bind.mp h
  obtain ⟨hpair, -⟩ := mem_pure.mp h
  obtain ⟨-, rfl⟩ := Prod.mk.inj hpair
  exact (braced_of_mem_group h₃).of_suffix
    ((LeavesEnd.text _ _ _ _ h₂).trans (LeavesEnd.skip _ _ _ _ h₁))

/-- **The body of an interface** was in one of its groups. -/
theorem braced_of_mem_interface {header : Interface} {inner : List Tree}
    (h : ((header, inner), rest) ∈ interface ts) : Braced inner ts := by
  obtain ⟨_, ts₁, h₁, h⟩ := mem_bind.mp h
  obtain ⟨_, ts₂, h₂, h⟩ := mem_bind.mp h
  obtain ⟨_, ts₃, h₃, h⟩ := mem_bind.mp h
  obtain ⟨_, ts₄, h₄, h⟩ := mem_bind.mp h
  obtain ⟨_, ts₅, h₅, h⟩ := mem_bind.mp h
  obtain ⟨inner', ts₆, h₆, h⟩ := mem_bind.mp h
  obtain ⟨hpair, -⟩ := mem_pure.mp h
  obtain ⟨-, rfl⟩ := Prod.mk.inj hpair
  exact (braced_of_mem_typeEnd h₆).of_suffix <| (LeavesEnd.skip _ _ _ _ h₅).trans <|
    (LeavesEnd.bases _ _ _ h₄).trans <| (LeavesEnd.skip _ _ _ _ h₃).trans <|
    (LeavesEnd.nameBut _ _ _ _ h₂).trans (LeavesEnd.skip _ _ _ _ h₁)

end InteropStubs.Reader
