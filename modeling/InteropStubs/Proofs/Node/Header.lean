import InteropStubs.Proofs.Node.Division
import InteropStubs.Proofs.Phrase.Header
import InteropStubs.Proofs.Phrase.Relabel

/-!
# Headers that are divided

The header of an interface has one division, but for parentheses behind its base: where they could be arguments, they
are (`Phrase.Arguable`). So an interface is read as its name and its base say (`Reader.whole?_interface`), or it has
more than one base (`Reader.exists_of_arguable`). A namespace is read as its name says
(`Reader.whole?_namespaceBlock`).
-/

namespace InteropStubs.Reader

open Phrase Rule

variable {α β : Type} {fuel : Nat} {ts us mid rest : List Tree}

instance : LawfulMonad Reader :=
  .mk' Reader (fun r => funext fun ts => List.flatMap_singleton' (r ts))
    (fun a f => funext fun ts => List.flatMap_singleton _ _)
    (fun r f g => funext fun ts => List.flatMap_assoc)

/-- **Reading goes on from the first place** from which it comes to an end. -/
theorem whole?_bind_first {r : Reader α} {f : α → Reader β} {a : α} (hmem : (a, mid) ∈ r ts)
    (hsorted : (r ts).Pairwise fun result result' => result'.2.length < result.2.length)
    (hsome : (whole? (f a) mid).isSome = true)
    (hfirst : ∀ b left c, (b, left) ∈ r ts → mid.length < left.length → (c, []) ∉ f b left) :
    whole? (r >>= f) ts = whole? (f a) mid := by
  obtain ⟨before, after, hsplit⟩ := List.append_of_mem hmem
  rw [hsplit, List.pairwise_append] at hsorted
  have hbefore : ((before.flatMap fun result => f result.1 result.2).find? fun result => result.2.isEmpty) = none := by
    rw [List.find?_eq_none]
    rintro ⟨c, left⟩ hc hempty
    obtain rfl := List.isEmpty_iff.mp hempty
    obtain ⟨⟨b, left⟩, hb, hc⟩ := List.mem_flatMap.mp hc
    have hlonger := hsorted.2.2 _ hb _ List.mem_cons_self
    exact hfirst b left c (hsplit ▸ List.mem_append_left _ hb) hlonger hc
  show (((r ts).flatMap fun result => f result.1 result.2).find? fun result => result.2.isEmpty).map Prod.fst = _
  rw [whole?, Option.isSome_map] at hsome
  rw [hsplit, List.flatMap_append, List.find?_append, hbefore, Option.none_or, List.flatMap_cons, List.find?_append,
    Option.or_of_isSome hsome, whole?]

/-- A text that is read is followed by less than the shorter ones. -/
theorem sorted_text (p : Phrase) (ts : List Tree) :
    (text p ts).Pairwise fun result result' => result'.2.length < result.2.length := by
  have htext : text p ts = (p.sizes ts).map fun n => (Tree.verbatim (ts.take n), ts.drop n) := by
    show (take p ts).flatMap (fun result => [(Tree.verbatim result.1, result.2)]) = _
    simp only [take, List.flatMap_map, List.splitAt_eq]
    exact List.map_eq_flatMap.symm
  rw [htext, List.pairwise_map]
  refine (sorted_sizes p ts).imp_of_mem fun {n n'} _ hn' hlt => ?_
  have hle : n' ≤ ts.length := takes_le (rule_takes_le _) p ts n' hn'
  simp only [List.length_drop]
  omega

/-! ### Behind the name of an interface -/

/-- What is behind the bases of an interface. -/
def headerEnd (name : String) (bases : Option (List String)) : Reader (Interface × List Tree) := do
  skip constraints
  let inner ← typeEnd
  return (⟨name, bases⟩, inner)

/-- More bases behind the first one. -/
def moreBases (base : String) (bound : Nat) : Reader (List String) := do
  if ← next "," then
    skip (the ",")
    return base :: (← separated (text (rule .type)) bound)
  else return [base]

/-- Arguments behind some bases. -/
def baseArguments (types : List String) : Reader (Option (List String)) := do
  match ← peek with
  | some (.group .round ..) => return some (types ++ [← text (parens (rule .arguments))])
  | _ => return some types

/-- What is behind the first base of an interface. -/
def behindBase (name : String) (bound : Nat) (base : String) : Reader (Interface × List Tree) := do
  let types ← moreBases base bound
  let bases ← baseArguments types
  headerEnd name bases

theorem headerEnd_of_mem {name : String} {bases : Option (List String)} {result : Interface × List Tree}
    (hts : Tree.Spelled ts) (h : (result, []) ∈ headerEnd name bases ts) :
    HeaderEnd ts ∧ result.1 = ⟨name, bases⟩ := by
  obtain ⟨_, us, hskip, h⟩ := mem_bind.mp h
  obtain ⟨inner, left, hend, h⟩ := mem_bind.mp h
  obtain ⟨rfl, rfl⟩ := mem_pure.mp h
  have hconstraints := mem_skip_iff.mp hskip
  refine ⟨headerEnd_of_constraints hts hconstraints ?_, rfl⟩
  have hus : Tree.Spelled us := hts.of_subset hconstraints.suffix.subset
  obtain ⟨isEmpty, _, hnext, h⟩ := mem_bind.mp hend
  obtain ⟨-, rfl⟩ := mem_next.mp hnext
  cases isEmpty with
  | true =>
      obtain ⟨_, _, hsemicolon, -⟩ := mem_bind.mp h
      exact (startsIn_the (by decide) _ _ hus (mem_skip_iff.mp hsemicolon)).mono (by decide)
  | false =>
      obtain ⟨⟨g, inner', closing⟩, _, hgroup, -⟩ := mem_bind.mp h
      obtain ⟨opening, rfl, rfl⟩ := mem_group.mp hgroup
      exact ⟨.group .curly, by decide, rfl⟩

theorem mem_headerEnd (name : String) (bases : Option (List String)) (hfuel : Tree.ruleDepth ts ≤ fuel)
    (hl : Leaves fuel (constraints ++ Rule.typeEnd (anyGroup .curly)) ts []) :
    ∃ inner, ((⟨name, bases⟩, inner), []) ∈ headerEnd name bases ts := by
  obtain ⟨us, hconstraints, hend⟩ := leaves_andThen.mp hl
  suffices h : ∃ inner, (inner, []) ∈ typeEnd us by
    obtain ⟨inner, hinner⟩ := h
    exact ⟨inner, mem_bind.mpr ⟨(), us, (mem_skip_of_le hfuel).mpr hconstraints,
      mem_bind.mpr ⟨inner, [], hinner, mem_pure.mpr ⟨rfl, rfl⟩⟩⟩⟩
  have hus := leavesEnd_le hconstraints hfuel
  rcases leaves_orElse.mp hend with h | h
  · obtain ⟨vs, hgroup, htouching⟩ := leaves_andThen.mp h
    obtain ⟨opening, inner, closing, left, rfl, -⟩ := leaves_opens.mp hgroup
    have hvs := Nat.le_trans (ruleDepth_le_of_suffix (List.suffix_cons _ _)) hus
    exact ⟨inner, mem_bind.mpr ⟨false, _, mem_next.mpr ⟨rfl, rfl⟩, mem_bind.mpr ⟨(_, inner, closing), vs,
      mem_group.mpr ⟨opening, rfl, rfl⟩, mem_bind.mpr ⟨(), [], (mem_skip_of_le hvs).mpr htouching,
        mem_pure.mpr ⟨rfl, rfl⟩⟩⟩⟩⟩
  · obtain ⟨t, rfl, ht⟩ := leaves_one.mp h
    exact ⟨[], mem_bind.mpr ⟨true, _, mem_next.mpr ⟨ht.symm, rfl⟩, mem_bind.mpr ⟨(), [],
      (mem_skip_of_le hus).mpr h, mem_pure.mpr ⟨rfl, rfl⟩⟩⟩⟩

/-- What may stand behind a base is what the reader goes on from. -/
theorem behindBase_of_mem {name base : String} {bound : Nat} {result : Interface × List Tree} (hts : Tree.Spelled ts)
    (h : (result, []) ∈ behindBase name bound base ts) : BehindBase ts := by
  obtain ⟨types, us, htypes, hmore⟩ := mem_bind.mp h
  obtain ⟨bases, vs, hbases, hend⟩ := mem_bind.mp hmore
  obtain ⟨isMore, _, hnext, hfirst⟩ := mem_bind.mp htypes
  obtain ⟨-, rfl⟩ := mem_next.mp hnext
  cases isMore with
  | true =>
      obtain ⟨_, ws, hcomma, -⟩ := mem_bind.mp hfirst
      exact .more (startsIn_the (by decide) _ _ hts (mem_skip_iff.mp hcomma))
  | false =>
      obtain ⟨-, rfl⟩ := mem_pure.mp hfirst
      obtain ⟨next, _, hpeek, hread⟩ := mem_bind.mp hbases
      obtain ⟨-, rfl⟩ := mem_peek.mp hpeek
      split at hread
      · obtain ⟨arguments, left, htext, hpure⟩ := mem_bind.mp hread
        obtain ⟨-, rfl⟩ := mem_pure.mp hpure
        have hleft := leaves_of_mem_text htext
        obtain ⟨opening, inner, closing, rfl, -⟩ := leaves_within.mp hleft
        exact .arguments (headerEnd_of_mem (hts.of_subset hleft.suffix.subset) hend).1
      · obtain ⟨-, rfl⟩ := mem_pure.mp hread
        exact .headerEnd (headerEnd_of_mem hts hend).1

/-! ### Interfaces -/

/-- The trees that are left. -/
def remaining : Reader (List Tree) :=
  fun ts => [(ts, ts)]

theorem bases_eq : bases = next ":" >>= fun isColon =>
    if isColon then skip (the ":") >>= fun _ => remaining >>= fun left =>
      separated (text (rule .type)) left.length >>= baseArguments
    else pure none := rfl

theorem begins_of_mem_bases {name : String} {result : Interface × List Tree} (hts : Tree.Spelled ts)
    (h : (result, []) ∈ (bases >>= headerEnd name) ts) : BeginsIn (.mark ":" :: headerEnds) ts := by
  obtain ⟨read, us, hbases, hend⟩ := mem_bind.mp h
  obtain ⟨isColon, _, hnext, hmore⟩ := mem_bind.mp hbases
  obtain ⟨-, rfl⟩ := mem_next.mp hnext
  cases isColon with
  | true =>
      obtain ⟨_, vs, hcolon, -⟩ := mem_bind.mp hmore
      exact (startsIn_the (by decide) _ _ hts (mem_skip_iff.mp hcolon)).mono (by decide)
  | false =>
      obtain ⟨-, rfl⟩ := mem_pure.mp hmore
      exact (headerEnd_of_mem hts hend).1.begins.mono (by decide)

/-- Behind a colon, the first base is read and what is behind it. -/
theorem whole?_bases {name : String} {colon : Token} (hcolon : colon.isText ":" = true) (hne : rest ≠ []) :
    whole? (bases >>= headerEnd name) (.token colon :: rest) =
      whole? (text (rule .type) >>= behindBase name (rest.length - 1)) rest := by
  have hnext : next ":" (.token colon :: rest) = [(true, .token colon :: rest)] := by
    show [(colon.isText ":", Tree.token colon :: rest)] = _
    rw [hcolon]
  have hskip : skip (the ":") (.token colon :: rest) = [((), rest)] := by
    have hsizes : (the ":").sizes (.token colon :: rest) = [1] := if_pos hcolon
    rw [skip, hsizes]
    rfl
  obtain ⟨t, more, rfl⟩ := List.exists_cons_of_ne_nil hne
  have hremaining : remaining (t :: more) = [(t :: more, t :: more)] := rfl
  have htypes : separated (text (rule .type)) (t :: more).length =
      text (rule .type) >>= fun base => moreBases base more.length := rfl
  rw [bases_eq, bind_assoc, whole?_bind_single hnext, if_pos rfl, bind_assoc, whole?_bind_single hskip, bind_assoc,
    whole?_bind_single hremaining, htypes, bind_assoc, bind_assoc]
  rfl

/-- In front of its base an interface is read in one way. -/
theorem whole?_interface_eq {name colon : Token} {base : List Tree} (hfuel : Tree.ruleDepth ts ≤ fuel)
    (hts : Tree.Spelled ts) (hhead : InterfaceHead fuel ts us name colon base rest) :
    whole? interface ts =
      whole? (text (rule .type) >>= behindBase name.text ((base ++ rest).length - 1)) (base ++ rest) := by
  have hsuffix : us <:+ ts := (List.suffix_cons _ _).trans hhead.start.suffix
  have hus : Tree.Spelled us := hts.of_subset hsuffix.subset
  have husFuel : Tree.ruleDepth us ≤ fuel := Nat.le_trans (ruleDepth_le_of_suffix hsuffix) hfuel
  have hmark : (Head.mark ":").of (.token colon) :=
    hus.of_isText (hhead.types.suffix.subset List.mem_cons_self) (by decide) hhead.colon
  have hne : base ++ rest ≠ [] := fun hnil => (hhead.headerEnd hts).ne_nil (List.append_eq_nil_iff.mp hnil).2
  have hword : whole? interface ts = _ := whole?_bind (a := ()) ((mem_skip_of_le hfuel).mpr hhead.start)
    fun _ left result hleft _ => by
      rcases forks_interfaceStart ts _ _ hts ((mem_skip_of_le hfuel).mp hleft) hhead.start with
        heq | ⟨_, hh, -⟩ | ⟨_, hh, -⟩
      · exact ⟨rfl, heq⟩
      · exact absurd hh List.not_mem_nil
      · exact absurd hh List.not_mem_nil
  have hnamed : nameBut [] (.token name :: us) = [(name, us)] := if_pos hhead.name
  rw [hword, whole?_bind_single hnamed, whole?_bind (a := ()) ((mem_skip_of_le husFuel).mpr hhead.types)
    fun _ left result hleft hresult => ?_]
  · exact whole?_bases hhead.colon hne
  · have hl := (mem_skip_of_le husFuel).mp hleft
    refine ⟨rfl, eq_of_typeParameters hus hl hhead.types (begins_of_mem_bases ?_ hresult) ?_⟩
    · exact hus.of_subset hl.suffix.subset
    · exact ⟨.mark ":", List.mem_cons_self, hmark⟩

theorem isSome_whole? {r : Reader α} {a : α} (h : (a, []) ∈ r ts) : (whole? r ts).isSome = true := by
  rw [whole?, Option.isSome_map, List.find?_isSome]
  exact ⟨(a, []), h, rfl⟩

theorem exists_headerEnd {name : String} {bases : Option (List String)} (hfuel : Tree.ruleDepth ts ≤ fuel)
    (hts : Tree.Spelled ts) (hl : Leaves fuel (constraints ++ Rule.typeEnd (anyGroup .curly)) ts []) :
    ∃ inner, whole? (headerEnd name bases) ts = some (⟨name, bases⟩, inner) := by
  obtain ⟨inner, hinner⟩ := mem_headerEnd name bases hfuel hl
  obtain ⟨⟨header, inner'⟩, hresult⟩ := Option.isSome_iff_exists.mp (isSome_whole? hinner)
  obtain ⟨-, rfl⟩ := headerEnd_of_mem hts (mem_of_whole? hresult)
  exact ⟨inner', hresult⟩

theorem head?_ne_group {heads : List Head} {b : Bracket} (h : BeginsIn heads ts) (hheads : .group b ∉ heads)
    (opening : Token) (inner : List Tree) (closing : Closing) : ts.head? ≠ some (.group b opening inner closing) := by
  rintro hhead
  obtain ⟨us, rfl⟩ := List.head?_eq_some_iff.mp hhead
  obtain ⟨h, hh, hb⟩ := h
  rcases closing with closing | place
  · exact hheads (begins_group_iff hb ▸ hh)
  · cases h <;> exact absurd hb nofun

/-- Where the header ends there is one base. -/
theorem whole?_behindBase {name base : String} {bound : Nat} (hts : HeaderEnd ts) :
    whole? (behindBase name bound base) ts = whole? (headerEnd name (some [base])) ts := by
  have hnext : next "," ts = [(false, ts)] := by
    cases ts with
    | nil => rfl
    | cons t us =>
        have hcomma : ∀ h ∈ headerEnds, h.admits (.text ",") = false := by decide
        obtain ⟨h, hh, hb⟩ := hts.begins
        show [(t.isText ",", t :: us)] = _
        rw [hb.isText_eq_false (hcomma h hh)]
  have hpeek : peek ts = [(ts.head?, ts)] := rfl
  rw [behindBase, moreBases, bind_assoc, whole?_bind_single hnext, if_neg Bool.false_ne_true, pure_bind, baseArguments,
    bind_assoc, whole?_bind_single hpeek]
  split
  · next h => exact absurd h (head?_ne_group hts.begins (by decide) _ _ _)
  · rw [pure_bind]

theorem behindBase_of_group {name base : String} {bound : Nat} {result : Interface × List Tree} {opening : Token}
    {inner : List Tree} {closing : Closing} (hts : Tree.Spelled (.group .round opening inner closing :: rest))
    (h : (result, []) ∈ behindBase name bound base (.group .round opening inner closing :: rest)) :
    (∃ arguments, result.1.bases = some [base, arguments]) ∧
      ∃ left, Leaves (Tree.ruleDepth (.group .round opening inner closing :: rest)) (parens (rule .arguments))
        (.group .round opening inner closing :: rest) left := by
  obtain ⟨types, us, htypes, hmore⟩ := mem_bind.mp h
  obtain ⟨bases, vs, hbases, hend⟩ := mem_bind.mp hmore
  obtain ⟨isMore, _, hnext, hfirst⟩ := mem_bind.mp htypes
  obtain ⟨rfl, rfl⟩ := mem_next.mp hnext
  obtain ⟨rfl, rfl⟩ := mem_pure.mp hfirst
  obtain ⟨next, _, hpeek, hread⟩ := mem_bind.mp hbases
  obtain ⟨rfl, rfl⟩ := mem_peek.mp hpeek
  obtain ⟨arguments, left, htext, hpure⟩ := mem_bind.mp hread
  obtain ⟨rfl, rfl⟩ := mem_pure.mp hpure
  have hleft := leaves_of_mem_text htext
  rw [(headerEnd_of_mem (hts.of_subset hleft.suffix.subset) hend).2]
  exact ⟨⟨arguments, rfl⟩, _, hleft⟩

theorem mem_behindBase_of_group {name base : String} {bound : Nat} {opening closing : Token} {inner : List Tree}
    (hfuel : Tree.ruleDepth (.group .round opening inner (.present closing) :: rest) ≤ fuel)
    (hfits : Leaves fuel (parens (rule .arguments)) (.group .round opening inner (.present closing) :: rest) rest)
    (hl : Leaves fuel (constraints ++ Rule.typeEnd (anyGroup .curly)) rest []) :
    ∃ result, (result, []) ∈ behindBase name bound base (.group .round opening inner (.present closing) :: rest) := by
  have hsuffix := List.suffix_cons (.group .round opening inner (.present closing)) rest
  have hrest := Nat.le_trans (ruleDepth_le_of_suffix hsuffix) hfuel
  obtain ⟨body, hbody⟩ := mem_headerEnd name _ hrest hl
  exact ⟨_, mem_bind.mpr ⟨_, _, mem_bind.mpr ⟨false, _, mem_next.mpr ⟨rfl, rfl⟩, mem_pure.mpr ⟨rfl, rfl⟩⟩,
    mem_bind.mpr ⟨_, _, mem_bind.mpr ⟨_, _, mem_peek.mpr ⟨rfl, rfl⟩, mem_bind.mpr ⟨_, rest,
      (mem_text_of_le hfuel).mpr ⟨[_], rfl, rfl, hfits⟩, mem_pure.mpr ⟨rfl, rfl⟩⟩⟩, hbody⟩⟩⟩

/-- Behind a base that is read stands what is behind the base, or parentheses that could be arguments. -/
theorem eq_or_arguments_of_base {name base : String} {bound : Nat} {result : Interface × List Tree} {left : List Tree}
    (hfuel : Tree.ruleDepth ts ≤ fuel) (hts : Tree.Spelled ts) (hl : Leaves fuel (rule .type) ts mid)
    (hl' : Leaves fuel (rule .type) ts left) (hmid : HeaderEnd mid)
    (h : (result, []) ∈ behindBase name bound base left) :
    left = mid ∨ (∃ opening inner closing, left = .group .round opening inner (.present closing) :: mid) ∧
      Arguable fuel ts mid ∧ ∃ arguments, result.1.bases = some [base, arguments] := by
  have hleft : Tree.Spelled left := hts.of_subset hl'.suffix.subset
  rcases eq_or_goesOn_of_base hts hl hl' hmid (behindBase_of_mem hleft h) with heq | ⟨⟨opening, inner, closing, rfl⟩, -⟩
  · exact .inl heq
  · obtain ⟨hbases, after, harguments⟩ := behindBase_of_group hleft h
    have hfits := (leaves_iff_of_le (Nat.le_refl _) (leavesEnd_le hl' hfuel)).mp harguments
    obtain ⟨_, _, _, heq, -⟩ := leaves_within.mp hfits
    obtain ⟨-, rfl⟩ := List.cons.inj heq
    exact .inr ⟨⟨opening, inner, closing, rfl⟩, ⟨opening, inner, closing, hl', hfits⟩, hbases⟩

/-- **An interface** is read as its name and its base say, if nothing behind the base could be arguments. -/
theorem whole?_interface {name colon : Token} {base : List Tree} (hfuel : Tree.ruleDepth ts ≤ fuel)
    (hts : Tree.Spelled ts) (hhead : InterfaceHead fuel ts us name colon base rest)
    (hplain : ¬ Arguable fuel (base ++ rest) rest) :
    ∃ inner, whole? interface ts = some (⟨name.text, some [Tree.verbatim base]⟩, inner) := by
  have hbaseSpelled : Tree.Spelled (base ++ rest) := hts.of_subset hhead.suffix.subset
  have hbaseFuel := Nat.le_trans (ruleDepth_le_of_suffix hhead.suffix) hfuel
  have hend := hhead.headerEnd hts
  rw [whole?_interface_eq hfuel hts hhead, whole?_bind (a := Tree.verbatim base)
    ((mem_text_of_le hbaseFuel).mpr ⟨base, rfl, rfl, hhead.base⟩), whole?_behindBase hend]
  · exact exists_headerEnd (leavesEnd_le hhead.base hbaseFuel)
      (hbaseSpelled.of_subset hhead.base.suffix.subset) hhead.ending
  · intro written left result hleft hresult
    obtain ⟨front, heq, rfl, hl⟩ := (mem_text_of_le hbaseFuel).mp hleft
    rcases eq_or_arguments_of_base hbaseFuel hbaseSpelled hhead.base hl hend hresult with rfl | ⟨-, harguable, -⟩
    · rw [List.append_cancel_right heq]
      exact ⟨rfl, rfl⟩
    · exact absurd harguable hplain

/-- An interface of which the parentheses behind the base could be arguments has them for a second base. -/
theorem exists_of_arguable {name colon : Token} {base : List Tree} (hfuel : Tree.ruleDepth ts ≤ fuel)
    (hts : Tree.Spelled ts) (hhead : InterfaceHead fuel ts us name colon base rest)
    (harguable : Arguable fuel (base ++ rest) rest) :
    ∃ header inner first second, whole? interface ts = some (header, inner) ∧ header.bases = some [first, second] := by
  have hbaseSpelled : Tree.Spelled (base ++ rest) := hts.of_subset hhead.suffix.subset
  have hbaseFuel := Nat.le_trans (ruleDepth_le_of_suffix hhead.suffix) hfuel
  have hend := hhead.headerEnd hts
  obtain ⟨opening, inner, closing, hl, hfits⟩ := harguable
  obtain ⟨front, hfront⟩ := hl.suffix
  obtain ⟨_, hresult⟩ := mem_behindBase_of_group (leavesEnd_le hl hbaseFuel) hfits hhead.ending
  have hsome := isSome_whole? hresult
  rw [whole?_interface_eq hfuel hts hhead, whole?_bind_first (a := Tree.verbatim front)
    ((mem_text_of_le hbaseFuel).mpr ⟨front, hfront.symm, rfl, hl⟩) (sorted_text _ _) hsome]
  · obtain ⟨⟨header, body⟩, hwhole⟩ := Option.isSome_iff_exists.mp hsome
    have hgroup := hbaseSpelled.of_subset hl.suffix.subset
    obtain ⟨arguments, hbases⟩ := (behindBase_of_group hgroup (mem_of_whole? hwhole)).1
    exact ⟨header, body, _, arguments, hwhole, hbases⟩
  · intro written left result hleft hlonger hresult
    obtain ⟨_, -, -, hl'⟩ := (mem_text_of_le hbaseFuel).mp hleft
    rcases eq_or_arguments_of_base hbaseFuel hbaseSpelled hhead.base hl' hend hresult with rfl | ⟨⟨_, _, _, rfl⟩, -⟩
    · exact absurd hlonger (by simp)
    · exact absurd hlonger (by simp)

/-! ### Namespaces -/

/-- **A namespace** is read as its name says. -/
theorem whole?_namespaceBlock {front : List Tree} (hfuel : Tree.ruleDepth ts ≤ fuel) (hts : Tree.Spelled ts)
    (hword : Leaves fuel (the "namespace") ts (front ++ rest))
    (hname : Leaves fuel (qualifiedNameBut []) (front ++ rest) rest)
    (hend : Leaves fuel (closedBody (anyGroup .curly)) rest []) :
    ∃ inner, whole? namespaceBlock ts = some (Tree.verbatim front, inner) := by
  have hus : Tree.Spelled (front ++ rest) := hts.of_subset hword.suffix.subset
  have husFuel := leavesEnd_le hword hfuel
  have hrestFuel := leavesEnd_le hname husFuel
  obtain ⟨vs, hgroup, htouching⟩ := leaves_andThen.mp hend
  obtain ⟨opening, inner, closing, left, rfl, -⟩ := leaves_opens.mp hgroup
  have hvsFuel := Nat.le_trans (ruleDepth_le_of_suffix (List.suffix_cons _ vs)) hrestFuel
  have hcurly {opening closing : Token} {inner vs : List Tree} :
      BeginsIn [.group .curly] (.group .curly opening inner (.present closing) :: vs) :=
    ⟨.group .curly, List.mem_singleton_self _, rfl⟩
  have hafter : whole? namespaceBlock ts = _ := whole?_bind (a := ()) ((mem_skip_of_le hfuel).mpr hword)
    fun _ left result hleft _ => by
      obtain ⟨t, rfl, -⟩ := leaves_one.mp ((mem_skip_of_le hfuel).mp hleft)
      obtain ⟨_, heq, -⟩ := leaves_one.mp hword
      exact ⟨rfl, (List.cons.inj heq).2⟩
  rw [hafter, whole?_bind (a := Tree.verbatim front) ((mem_text_of_le husFuel).mpr ⟨front, rfl, rfl, hname⟩)
    fun _ left result hleft hresult => ?_, whole?_bind_single (group_cons .curly opening closing inner vs)]
  · refine ⟨inner, whole?_eq_some ?_ fun result hresult => ?_⟩
    · exact mem_bind.mpr ⟨(), [], (mem_skip_of_le hvsFuel).mpr htouching, mem_pure.mpr ⟨rfl, rfl⟩⟩
    · obtain ⟨_, _, -, hpure⟩ := mem_bind.mp hresult
      exact (mem_pure.mp hpure).1
  · obtain ⟨front', heq, rfl, hl⟩ := (mem_text_of_le husFuel).mp hleft
    obtain ⟨⟨g, inner', closing'⟩, _, hbody, -⟩ := mem_bind.mp hresult
    obtain ⟨opening', rfl, rfl⟩ := mem_group.mp hbody
    rcases forks_qualifiedName _ _ _ hus hl hname with hsame | hbreaks | hbreaks
    · rw [hsame] at heq
      rw [List.append_cancel_right heq, hsame]
      exact ⟨rfl, rfl⟩
    · exact (hbreaks.disjoint hcurly (by decide)).elim
    · exact (hbreaks.disjoint hcurly (by decide)).elim

/-! ### Relabelled bases -/

/-- Phrases do not see a relabelling. -/
theorem leaves_relabel {front : List Tree} {p : Phrase} (hp : p.isDiscreet = true) (φ : Relabelling) :
    Leaves fuel p (front.map (Tree.relabel φ) ++ rest.map (Tree.relabel φ)) (rest.map (Tree.relabel φ)) ↔
      Leaves fuel p (front ++ rest) rest := by
  rw [leaves_append_iff, leaves_append_iff, List.length_map, ← List.map_append,
    takes_relabel φ (rule_takes_relabel φ fuel) p hp]

theorem leaves_relabel_nil {p : Phrase} (hp : p.isDiscreet = true) (φ : Relabelling) :
    Leaves fuel p (ts.map (Tree.relabel φ)) [] ↔ Leaves fuel p ts [] := by
  have happend : Leaves fuel p (ts.map (Tree.relabel φ) ++ [].map (Tree.relabel φ)) ([].map (Tree.relabel φ)) ↔
      Leaves fuel p (ts ++ []) [] := leaves_relabel hp φ
  simpa using happend

theorem arguable_iff_of_le {fuel' : Nat} (hfuel : Tree.ruleDepth ts ≤ fuel) (hfuel' : Tree.ruleDepth ts ≤ fuel') :
    Arguable fuel ts rest ↔ Arguable fuel' ts rest := by
  have hiff (opening : Token) (inner : List Tree) (closing : Token) :
      Leaves fuel (rule .type) ts (.group .round opening inner (.present closing) :: rest) ∧
          Leaves fuel (parens (rule .arguments)) (.group .round opening inner (.present closing) :: rest) rest ↔
        Leaves fuel' (rule .type) ts (.group .round opening inner (.present closing) :: rest) ∧
          Leaves fuel' (parens (rule .arguments)) (.group .round opening inner (.present closing) :: rest) rest := by
    rw [leaves_iff_of_le hfuel hfuel']
    exact and_congr_right fun hl => leaves_iff_of_le (Nat.le_trans (ruleDepth_le_of_suffix hl.suffix) hfuel)
      (Nat.le_trans (ruleDepth_le_of_suffix hl.suffix) hfuel')
  simp only [Arguable, hiff]

/-- **Whether parentheses could be arguments** is seen from the base alone. -/
theorem arguable_of_relabel {φ : Relabelling} {base rest' : List Tree} (hts : Tree.Spelled (base ++ rest))
    (hts' : Tree.Spelled (base.map (Tree.relabel φ) ++ rest'))
    (hl' : Leaves fuel (rule .type) (base.map (Tree.relabel φ) ++ rest') rest') (hrest' : HeaderEnd rest')
    (h : Arguable fuel (base.map (Tree.relabel φ) ++ rest') rest') : Arguable fuel (base ++ rest) rest := by
  obtain ⟨opening, inner, closing, hl, hfits⟩ := h
  rcases eq_or_goesOn_of_base hts' hl' hl hrest' (.arguments hrest') with heq | ⟨-, -, t, front, heq, hall⟩
  · exact absurd (congrArg List.length heq) (by simp)
  · have hbase : base.map (Tree.relabel φ) = (t :: front) ++ [.group .round opening inner (.present closing)] := by
      rw [← List.append_cancel_right_eq _ rest', heq, List.append_assoc, List.singleton_append]
    obtain ⟨base, last, rfl, hfront, hlast⟩ := List.map_eq_append_iff.mp hbase
    obtain ⟨g, rfl, hg⟩ := List.map_eq_singleton_iff.mp hlast
    rcases g with _ | ⟨b, opening₀, inner₀, closing₀ | _⟩ <;> simp only [Tree.relabel_token, Tree.relabel_group,
      Closing.relabel, reduceCtorEq, Tree.group.injEq, Closing.present.injEq, and_false] at hg
    obtain ⟨rfl, -, rfl, -⟩ := hg
    rw [List.append_assoc, List.singleton_append]
    refine ⟨opening₀, inner₀, closing₀, ?_, ?_⟩
    · have hround := hall ((Tree.group .round opening₀ inner₀ (.present closing₀) :: rest).map (Tree.relabel φ))
        (by rw [List.map_cons, Tree.relabel_group]; rfl)
      rw [← hfront] at hround
      exact (leaves_relabel (by decide) φ).mp hround
    · obtain ⟨_, _, _, hgroup, harguments⟩ := leaves_within.mp hfits
      obtain ⟨-, -, rfl, -⟩ := Tree.group.inj (List.cons.inj hgroup).1
      exact leaves_within.mpr ⟨_, _, _, rfl, (leaves_relabel_nil (by decide) φ).mp harguments⟩

end InteropStubs.Reader
