import InteropStubs.Proofs.Node.Reading
import InteropStubs.Proofs.Phrase.Ends

/-!
# What readers read

A phrase fits a list in several ways, and so a reader has several results. Most of them come to nothing,
because they stop where nothing can go on. `Reader.Reads` says that a reader has one result and that
whatever else it has ends in front of one of some heads; `Reader.Fails` says that it has no result at
all. Readings are put together by `Reads.bind`, if what follows fails in front of these heads.

* `Reads.whole?`, `Fails.whole?`: what is read from a whole list.
* `Reads.separated_more`, `Reads.untilEnd_more`: lists of things that are read one by one.
-/

namespace InteropStubs.Reader

open Phrase

variable {α β γ : Type} {stops early : List Head} {h : Head} {ts mid rest : List Tree}

/-- A reader reads a value and leaves `rest`; it may stop early, but only in front of `stops`. -/
structure Reads (stops : List Head) (r : Reader α) (ts : List Tree) (a : α) (rest : List Tree) : Prop where
  mem : (a, rest) ∈ r ts
  only : ∀ b left, (b, left) ∈ r ts → (b = a ∧ left = rest) ∨ ∃ h ∈ stops, h.Begins left

/-- A reader reads nothing at all. -/
def Fails (r : Reader α) (ts : List Tree) : Prop :=
  ∀ a rest, (a, rest) ∉ r ts

/-! ### One after the other -/

/-- To read nothing is one reading. -/
theorem Reads.pure (a : α) (ts : List Tree) : Reads stops (Pure.pure a) ts a ts :=
  ⟨mem_pure.mpr ⟨rfl, rfl⟩, fun _ _ h => .inl (mem_pure.mp h)⟩

/-- What is read first, and what follows it: behind an early stop, it stops as well. -/
theorem Reads.bind_stopping {r : Reader α} {f : α → Reader β} {a : α} {b : β}
    (hr : Reads early r ts a mid)
    (hearly : ∀ h ∈ early, ∀ a left, h.Begins left →
      ∀ b rest, (b, rest) ∈ f a left → ∃ h ∈ stops, h.Begins rest)
    (hf : Reads stops (f a) mid b rest) : Reads stops (r >>= f) ts b rest where
  mem := mem_bind.mpr ⟨a, mid, hr.mem, hf.mem⟩
  only b' left hmem := by
    obtain ⟨a', mid', ha', hb'⟩ := mem_bind.mp hmem
    rcases hr.only a' mid' ha' with ⟨rfl, rfl⟩ | ⟨h, hh, hbegins⟩
    · exact hf.only b' left hb'
    · exact .inr (hearly h hh a' mid' hbegins b' left hb')

/-- **What is read first**, and what follows it, which does not go on behind an early stop. -/
theorem Reads.bind {r : Reader α} {f : α → Reader β} {a : α} {b : β} (hr : Reads early r ts a mid)
    (hearly : ∀ h ∈ early, ∀ a left, h.Begins left → Fails (f a) left)
    (hf : Reads stops (f a) mid b rest) : Reads stops (r >>= f) ts b rest :=
  hr.bind_stopping (fun h hh a left hb b rest hmem => absurd hmem (hearly h hh a left hb b rest)) hf

/-- What is made of a reading is one, too. -/
theorem Reads.map {r : Reader α} {a : α} (f : α → β) (hr : Reads stops r ts a rest) :
    Reads stops (r >>= fun a => Pure.pure (f a)) ts (f a) rest :=
  hr.bind_stopping
    (fun h hh _ _ hb _ _ hmem => ⟨h, hh, (mem_pure.mp hmem).2 ▸ hb⟩) (.pure _ _)

/-- Readers one after the other fail if the second one does, behind every stop. -/
theorem Fails.bind {r : Reader α} {f : α → Reader β} {a : α} (hr : Reads early r ts a mid)
    (hearly : ∀ h ∈ early, ∀ a left, h.Begins left → Fails (f a) left) (hf : Fails (f a) mid) :
    Fails (r >>= f) ts := fun b left hmem => by
  obtain ⟨a', mid', ha', hb'⟩ := mem_bind.mp hmem
  rcases hr.only a' mid' ha' with ⟨rfl, rfl⟩ | ⟨h, hh, hbegins⟩
  · exact hf b left hb'
  · exact hearly h hh a' mid' hbegins b left hb'

/-- What is read first and does not stop early. -/
theorem Reads.next {r : Reader α} {f : α → Reader β} {a : α} {b : β} (hr : Reads [] r ts a mid)
    (hf : Reads stops (f a) mid b rest) : Reads stops (r >>= f) ts b rest :=
  hr.bind (by simp) hf

/-- They fail if the second one does behind the only reading. -/
theorem Fails.next {r : Reader α} {f : α → Reader β} {a : α} (hr : Reads [] r ts a mid)
    (hf : Fails (f a) mid) : Fails (r >>= f) ts :=
  .bind hr (by simp) hf

/-- They fail if the first one does. -/
theorem Fails.first {r : Reader α} (f : α → Reader β) (hr : Fails r ts) : Fails (r >>= f) ts :=
  fun b left hmem => by
    obtain ⟨a, mid, ha, -⟩ := mem_bind.mp hmem
    exact hr a mid ha

/-! ### Phrases -/

/-- To skip a phrase is to leave what it leaves. -/
theorem mem_skip_iff {p : Phrase} {u : Unit} :
    (u, rest) ∈ skip p ts ↔ Leaves (Tree.ruleDepth ts) p ts rest :=
  mem_skip

/-- A phrase as it is written is what stands in front of what it leaves. -/
theorem mem_text_append {p : Phrase} {front : List Tree} {a : String} :
    (a, rest) ∈ text p (front ++ rest) ↔
      a = Tree.verbatim front ∧ Leaves (Tree.ruleDepth (front ++ rest)) p (front ++ rest) rest := by
  have hfront (n : Nat) (hn : n ∈ p.sizes (front ++ rest)) (heq : rest = (front ++ rest).drop n) :
      (front ++ rest).take n = front := by
    have hle := takes_le (rule_takes_le _) p _ n hn
    have hlength := congrArg List.length heq
    rw [List.length_drop, List.length_append] at hlength
    rw [List.length_append] at hle
    rw [show n = front.length by omega, List.take_left']
    rfl
  rw [mem_text]
  constructor
  · rintro ⟨n, hn, rfl, heq⟩
    exact ⟨by rw [hfront n hn heq], n, hn, heq⟩
  · rintro ⟨rfl, n, hn, heq⟩
    exact ⟨n, hn, by rw [hfront n hn heq], heq⟩

/-- The text of a phrase leaves what the phrase leaves. -/
theorem leaves_of_mem_text {p : Phrase} {a : String} (h : (a, rest) ∈ text p ts) :
    Leaves (Tree.ruleDepth ts) p ts rest := by
  obtain ⟨n, hn, -, hrest⟩ := mem_text.mp h
  exact ⟨n, hn, hrest⟩

/-- A phrase with one end is skipped in one way. -/
theorem Reads.skip {p : Phrase} (hp : Ends stops (Tree.ruleDepth ts) p ts rest) :
    Reads stops (skip p) ts () rest where
  mem := mem_skip_iff.mpr hp.leaves
  only _ left hmem := (hp.only left (mem_skip_iff.mp hmem)).imp_left (⟨rfl, ·⟩)

/-- A phrase that passes over what follows. -/
theorem Reads.pass {p : Phrase} (hb : h.Begins ts) (hp : p.passes h = true)
    (hl : Leaves (Tree.ruleDepth ts) p ts ts) : Reads stops (Reader.skip p) ts () ts :=
  .skip (.pass hb hp hl)

/-- A phrase with one end has one text. -/
theorem Reads.text {p : Phrase} {front : List Tree}
    (hp : Ends stops (Tree.ruleDepth (front ++ rest)) p (front ++ rest) rest) :
    Reads stops (text p) (front ++ rest) (Tree.verbatim front) rest where
  mem := mem_text_append.mpr ⟨rfl, hp.leaves⟩
  only b left hmem := by
    rcases hp.only left (leaves_of_mem_text hmem) with rfl | hstop
    · exact .inl ⟨(mem_text_append.mp hmem).1, rfl⟩
    · exact .inr hstop

/-- A phrase that refuses what is there is not skipped. -/
theorem Fails.skip {p : Phrase} (hb : h.Begins ts) (hp : p.refuses h = true) :
    Fails (Reader.skip p) ts := fun _ _ hmem =>
  not_leaves hb hp (mem_skip_iff.mp hmem)

/-! ### Single trees -/

/-- A token that may be a name is read as one. -/
theorem Reads.nameBut {keywords : List String} {t : Token}
    (ht : (TokenClass.nameBut keywords).holds t = true) :
    Reads [] (nameBut keywords) (.token t :: rest) t rest where
  mem := mem_nameBut.mpr ⟨rfl, ht⟩
  only b left hmem := by
    obtain ⟨heq, -⟩ := mem_nameBut.mp hmem
    obtain ⟨rfl, rfl⟩ : t = b ∧ rest = left := by simpa using heq
    exact .inl ⟨rfl, rfl⟩

/-- What begins otherwise is not. -/
theorem Fails.nameBut {keywords : List String} (hb : h.Begins ts)
    (hh : h.admits (.nameBut keywords) = false) : Fails (Reader.nameBut keywords) ts :=
  fun t left hmem => by
    obtain ⟨rfl, ht⟩ := mem_nameBut.mp hmem
    exact absurd (Head.admits_of_holds hb.of_token ht) (by simp [hh])

/-- A closed group is read as one. -/
theorem Reads.group (b : Bracket) (opening closing : Token) (inner rest : List Tree) :
    Reads [] (group b) (.group b opening inner (.present closing) :: rest)
      (.group b opening inner (.present closing), inner, closing) rest where
  mem := mem_group.mpr ⟨opening, rfl, rfl⟩
  only := by
    rintro ⟨g, inner', closing'⟩ left hmem
    obtain ⟨opening', rfl, heq⟩ := mem_group.mp hmem
    obtain ⟨⟨rfl, rfl, rfl⟩, rfl⟩ :
        (opening = opening' ∧ inner = inner' ∧ closing = closing') ∧ rest = left := by simpa using heq
    exact .inl ⟨rfl, rfl⟩

/-- What begins otherwise is not. -/
theorem Fails.group {b : Bracket} (hb : h.Begins ts) (hh : h ≠ .group b) :
    Fails (Reader.group b) ts := by
  rintro ⟨g, inner, closing⟩ left hmem
  obtain ⟨opening, rfl, rfl⟩ := mem_group.mp hmem
  exact hh (begins_group_iff hb)

theorem Reads.peek (ts : List Tree) : Reads [] peek ts ts.head? ts :=
  ⟨mem_peek.mpr ⟨rfl, rfl⟩, fun _ _ hmem => .inl (mem_peek.mp hmem)⟩

theorem Reads.given {o : Option α} {a : α} (ho : o = some a) (ts : List Tree) :
    Reads [] (given o) ts a ts := by
  refine ⟨mem_given.mpr ⟨ho, rfl⟩, fun b left hmem => .inl ?_⟩
  obtain ⟨hb, hleft⟩ := mem_given.mp hmem
  exact ⟨Option.some.inj (hb.symm.trans ho), hleft⟩

/-- A mark that is next is found. -/
theorem Reads.isNext {mark : String} (hb : h.Begins ts) (hh : h.insists (.text mark) = true) :
    Reads [] (Reader.next mark) ts true ts := by
  have hnext : ts.head?.any (Tree.isText mark) = true := by
    cases ts with
    | nil => cases h <;> first | exact absurd hh Bool.false_ne_true | exact absurd hb id
    | cons t ts =>
        cases t with
        | token t => exact Head.holds_of_insists hb.of_token hh
        | group => cases h <;> first | exact absurd hh Bool.false_ne_true | exact absurd hb id
  exact ⟨mem_next.mpr ⟨hnext.symm, rfl⟩, fun _ _ hmem => .inl (hnext ▸ mem_next.mp hmem)⟩

/-- A mark that is not next is not. -/
theorem Reads.isNotNext {mark : String} (hb : h.Begins ts) (hh : h.admits (.text mark) = false) :
    Reads [] (Reader.next mark) ts false ts := by
  have hnext : ts.head?.any (Tree.isText mark) = false := by
    cases ts with
    | nil => rfl
    | cons t ts => exact hb.isText_eq_false hh
  exact ⟨mem_next.mpr ⟨hnext.symm, rfl⟩, fun _ _ hmem => .inl (hnext ▸ mem_next.mp hmem)⟩

/-! ### Whole lists and lists of things -/

/-- **What is read from a whole list**, if nothing else comes to its end. -/
theorem Reads.whole? {r : Reader α} {a : α} (hr : Reads stops r ts a []) (hstops : .nothing ∉ stops) :
    whole? r ts = some a := by
  unfold Reader.whole?
  cases hfind : (r ts).find? fun result => result.2.isEmpty with
  | none => exact absurd (List.find?_eq_none.mp hfind _ hr.mem) (by simp)
  | some result =>
      obtain ⟨b, left⟩ := result
      obtain rfl : left = [] := by simpa using List.find?_some hfind
      rcases hr.only b [] (List.mem_of_find?_eq_some hfind) with ⟨rfl, -⟩ | ⟨h, hh, hbegins⟩
      · rfl
      · cases h <;> first | exact absurd hh hstops | exact hbegins.elim

/-- A reader that fails reads no whole list. -/
theorem Fails.whole? {r : Reader α} (hr : Fails r ts) : Reader.whole? r ts = none := by
  have hnone : r ts = [] := List.eq_nil_iff_forall_not_mem.mpr fun x => hr x.1 x.2
  simp [Reader.whole?, hnone]

/-- The longest reading, if everything else that is read leaves more. -/
theorem Reads.longest {r : Reader α} {a : α} (hmem : (a, rest) ∈ r ts)
    (honly : ∀ b left, (b, left) ∈ r ts → (b = a ∧ left = rest) ∨ rest.length < left.length) :
    Reads [] (longest r) ts a rest := by
  have hlongest : Reader.longest r ts = [(a, rest)] := by
    have hfind : (r ts).find? (fun x => (r ts).all fun y => x.2.length ≤ y.2.length) =
        some (a, rest) := by
      have hshortest : ∀ y ∈ r ts, rest.length ≤ y.2.length := fun y hy => by
        rcases honly y.1 y.2 hy with ⟨-, heq⟩ | hlt
        · exact heq ▸ Nat.le_refl _
        · exact Nat.le_of_lt hlt
      cases hfind : (r ts).find? (fun x => (r ts).all fun y => x.2.length ≤ y.2.length) with
      | none =>
          have hnot := List.find?_eq_none.mp hfind _ hmem
          exact absurd (by simpa using fun b left hy => hshortest (b, left) hy) hnot
      | some x =>
          have hx := List.find?_some hfind
          have hle : x.2.length ≤ rest.length := by
            simpa using List.all_eq_true.mp hx _ hmem
          rcases honly x.1 x.2 (List.mem_of_find?_eq_some hfind) with ⟨h₁, h₂⟩ | hlt
          · rw [← h₁, ← h₂]
          · omega
    rw [Reader.longest, hfind]
    rfl
  exact ⟨by simp [hlongest], fun b left hb => .inl (by simpa [hlongest] using hb)⟩

/-- What is read of several things: the first of them, and more only behind a comma. -/
theorem mem_separated_succ {r : Reader α} {bound : Nat} {as : List α}
    (hmem : (as, rest) ∈ separated r (bound + 1) ts) :
    ∃ a left, (a, left) ∈ r ts ∧ (as = [a] ∧ rest = left ∨
      ∃ comma more others, left = .token comma :: more ∧ comma.isText "," = true ∧
        (others, rest) ∈ separated r bound more ∧ as = a :: others) := by
  obtain ⟨a, left, ha, hmem⟩ := mem_bind.mp hmem
  obtain ⟨again, left', hnext, hmem⟩ := mem_bind.mp hmem
  obtain ⟨-, rfl⟩ := mem_next.mp hnext
  refine ⟨a, left', ha, ?_⟩
  cases again with
  | false =>
      obtain ⟨rfl, rfl⟩ := mem_pure.mp hmem
      exact .inl ⟨rfl, rfl⟩
  | true =>
      obtain ⟨_, more, hcomma, hmem⟩ := mem_bind.mp hmem
      obtain ⟨others, left, hothers, hmem⟩ := mem_bind.mp hmem
      obtain ⟨rfl, rfl⟩ := mem_pure.mp hmem
      obtain ⟨comma, rfl, htext⟩ := leaves_one.mp (mem_skip_iff.mp hcomma)
      exact .inr ⟨comma, more, others, rfl, htext, hothers, rfl⟩

/-- Where no comma follows, nothing more is read. -/
theorem eq_of_mem_separated_rest {r : Reader (List α)} {as bs : List α} (hb : h.Begins ts)
    (hh : h.admits (.text ",") = false)
    (hmem : (bs, rest) ∈ (do if ← Reader.next "," then r else Pure.pure as : Reader (List α)) ts) :
    rest = ts := by
  obtain ⟨more, mid, hmore, hrest⟩ := mem_bind.mp hmem
  rcases (Reads.isNotNext hb hh).only more mid hmore with ⟨rfl, rfl⟩ | ⟨_, hnone, -⟩
  · exact (mem_pure.mp hrest).2
  · exact absurd hnone List.not_mem_nil

/-- The last of several things with commas between. -/
theorem Reads.separated_one {r : Reader α} {a : α} (bound : Nat) (hr : Reads stops r ts a rest)
    (hrest : h.Begins rest) (hh : h.admits (.text ",") = false)
    (hstops : ∀ h ∈ stops, h.admits (.text ",") = false) :
    Reads stops (separated r (bound + 1)) ts [a] rest := by
  refine hr.bind_stopping (fun h hh' b left hb c rest hmem => ?_)
    ((Reads.isNotNext hrest hh).next (.pure _ _))
  exact ⟨h, hh', eq_of_mem_separated_rest hb (hstops h hh') hmem ▸ hb⟩

/-- One of several things, with a comma behind it. -/
theorem Reads.separated_more {r : Reader α} {a : α} {as : List α} {comma : Token} {bound : Nat}
    (hr : Reads stops r ts a (.token comma :: mid)) (hcomma : comma.isText "," = true)
    (hstops : ∀ h ∈ stops, h.admits (.text ",") = false)
    (hmore : Reads stops (separated r bound) mid as rest) :
    Reads stops (separated r (bound + 1)) ts (a :: as) rest := by
  have hnext : Reads [] (Reader.next ",") (.token comma :: mid) true (.token comma :: mid) :=
    ⟨mem_next.mpr ⟨by simp [Tree.isText, hcomma], rfl⟩, fun _ _ hmem => .inl (by
      simpa [Tree.isText, hcomma] using mem_next.mp hmem)⟩
  have hskip : Reads [] (Reader.skip (the ",")) (.token comma :: mid) () mid := .skip (.one hcomma)
  refine hr.bind_stopping (fun h hh' b left hb c rest hmem => ?_)
    (hnext.next (hskip.next (hmore.map (a :: ·))))
  exact ⟨h, hh', eq_of_mem_separated_rest hb (hstops h hh') hmem ▸ hb⟩

/-- At the end nothing is left to read. -/
theorem Reads.untilEnd_nil (r : Reader α) (bound : Nat) : Reads [] (untilEnd r bound) [] [] [] := by
  cases bound with
  | zero => exact .pure _ _
  | succ bound => exact (Reads.peek []).next (.pure _ _)

/-- One thing is read, and then what is left up to the end. -/
theorem Reads.untilEnd_more {r : Reader α} {a : α} {as : List α} {bound : Nat} (hts : ts ≠ [])
    (hr : Reads [] r ts a mid) (hmore : Reads [] (untilEnd r bound) mid as rest) :
    Reads [] (untilEnd r (bound + 1)) ts (a :: as) rest := by
  obtain ⟨t, ts, rfl⟩ := List.exists_cons_of_ne_nil hts
  exact (Reads.peek _).next (hr.next (hmore.next (.pure _ _)))

end InteropStubs.Reader
