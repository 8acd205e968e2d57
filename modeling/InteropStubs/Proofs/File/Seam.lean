import InteropStubs.File
import InteropStubs.Proofs.Node.Border
import InteropStubs.Proofs.Node.Seam
import InteropStubs.Proofs.Token.Source

/-!
# Seams of files

A *seam* of a file is a place between its declarations: in front of one of them, in front of the brace that
closes the body of one, or at the end of the file (`File.Seam`).

* `File.Seam.isSeam`: a seam is a seam of the trees of the file, and what is in front of it ends with a
  semicolon or a brace and outside of strings (`Token.Ended`).
-/

namespace InteropStubs

/-! ### Where tokens may be parted -/

namespace Token

/-- Whether a token is a semicolon or a brace. -/
def isBorder (t : Token) : Bool :=
  t.isText ";" || t.isText openBrace || t.isText closeBrace

/-- Some tokens end with a semicolon or a brace and outside of strings. -/
structure Ended (ts : List Token) : Prop where
  last : ∀ t ∈ ts.getLast?, t.isBorder = true
  quotes : Tree.openedQuotes ts ≤ Tree.closedQuotes ts

/-- At a place a token starts of which no phrase asks whether it touches what is in front of it, and what
is in front of it is ended. -/
def Border (p : Nat) (ts : List Token) : Prop :=
  ∃ front t back, ts = front ++ t :: back ∧ t.start = p ∧ Ended front ∧
    ∀ m ∈ touchy, t.kind = .mark → t.text ≠ m

variable {p : Nat} {ts us : List Token} {t : Token}

theorem Ended.nil : Ended [] :=
  ⟨nofun, Nat.le_refl _⟩

/-- An ended part behind an ended part is ended. -/
theorem Ended.append (hts : Ended ts) (hus : Ended us) : Ended (ts ++ us) where
  last t ht := by
    rw [List.getLast?_append] at ht
    rcases Option.or_eq_some_iff.mp ht with ht | ⟨-, ht⟩
    · exact hus.last t ht
    · exact hts.last t ht
  quotes := by
    have hts := hts.quotes
    have hus := hus.quotes
    simp only [Tree.openedQuotes, Tree.closedQuotes, List.countP_append] at hts hus ⊢
    omega

/-- A border behind an ended part is one. -/
theorem Border.append_left (hts : Ended ts) (hus : Border p us) : Border p (ts ++ us) := by
  obtain ⟨front, t, back, rfl, hp, hfront, ht⟩ := hus
  exact ⟨ts ++ front, t, back, (List.append_assoc ..).symm, hp, hts.append hfront, ht⟩

theorem Border.append_right (hts : Border p ts) (us : List Token) : Border p (ts ++ us) := by
  obtain ⟨front, t, back, rfl, hp, hfront, ht⟩ := hts
  exact ⟨front, t, back ++ us, by simp, hp, hfront, ht⟩

/-- Behind a brace or a semicolon. -/
theorem Ended.concat (hquotes : Tree.openedQuotes ts ≤ Tree.closedQuotes ts) (ht : t.isBorder = true) :
    Ended (ts ++ [t]) where
  last u hu := by
    obtain rfl : t = u := by simpa using hu
    exact ht
  quotes := by
    have hkind : t.kind ≠ .openingQuote := by
      intro hkind
      simp [isBorder, isText, hkind] at ht
    simp only [Tree.openedQuotes, Tree.closedQuotes, List.countP_append] at hquotes ⊢
    simp [hkind]
    omega

end Token

/-! ### Trees without faults -/

namespace Tree

/-- A tree in which every bracket is closed, and by its own token. -/
structure Complete (t : Tree) : Prop where
  matched : t.Matched
  closed : t.isClosed = true

variable {b : Bracket} {opening closing : Token} {inner ts : List Tree} {t : Tree} {d : Nat}

/-- What is in a complete group is complete. -/
theorem Complete.below {closing : Closing} (h : Complete (.group b opening inner closing)) :
    ∀ t ∈ inner, t.Complete := by
  obtain ⟨hmatched, hclosed⟩ := h
  cases hmatched with
  | group hopen hclose hinner =>
      cases closing with
      | present closing => exact fun t ht => ⟨hinner t ht, areClosed_iff.mp hclosed t ht⟩
      | absent => exact absurd hclosed Bool.false_ne_true

/-- A complete group is opened by its bracket. -/
theorem Complete.opens {closing : Closing} (h : Complete (.group b opening inner closing)) :
    bracketOpenedBy? opening = some b := by
  cases h.matched with
  | group hopen => exact hopen

/-- A complete group is closed by its bracket. -/
theorem Complete.closes (h : Complete (.group b opening inner (.present closing))) :
    bracketClosedBy? closing = some b := by
  cases h.matched with
  | group _ hclose => exact hclose closing rfl

/-- Complete trees close every string that they open. -/
theorem quotes_le_of_complete (h : ∀ t ∈ ts, t.Complete) :
    openedQuotes (tokensAll ts) ≤ closedQuotes (tokensAll ts) :=
  quotes_le ts (fun t ht => (h t ht).matched) (areClosed_iff.mpr fun t ht => (h t ht).closed)

theorem isText_of_opens {t : Token} (h : bracketOpenedBy? t = some .curly) : t.isText openBrace = true := by
  by_contra hne
  simp only [bracketOpenedBy?, hne] at h
  split_ifs at h <;> simp_all

theorem isText_of_closes {t : Token} (h : bracketClosedBy? t = some .curly) : t.isText closeBrace = true := by
  by_contra hne
  simp only [bracketClosedBy?, hne] at h
  split_ifs at h <;> simp_all

/-- Behind something in front of a brace, and the brace. -/
theorem ended_of_opens (h : ∀ t ∈ ts, t.Complete) (hopen : bracketOpenedBy? opening = some .curly) :
    Token.Ended (tokensAll ts ++ [opening]) :=
  .concat (quotes_le_of_complete h) (by simp [Token.isBorder, isText_of_opens hopen])

/-- Sealed and complete trees are ended. -/
theorem Sealed.ended (hts : Sealed ts) (h : ∀ t ∈ ts, t.Complete) : Token.Ended (tokensAll ts) := by
  refine ⟨fun u hu => ?_, quotes_le_of_complete h⟩
  obtain ⟨front, t, rfl, ht⟩ := hts
  obtain ⟨-, ht'⟩ := List.forall_mem_append.mp h
  have hcomplete := ht' t (List.mem_singleton_self t)
  rw [tokensAll_append, tokensAll_cons, tokensAll_nil, List.append_nil, List.getLast?_append] at hu
  match t, ht, hcomplete with
  | .token t, ht, _ =>
      obtain rfl : t = u := by simpa [tokens] using hu
      have ht : t.isText ";" = true := ht
      simp [Token.isBorder, ht]
  | .group .curly opening inner (.present closing), _, hcomplete =>
      obtain rfl : closing = u := by
        simpa [tokens, Closing.tokens, List.getLast?_cons, List.getLast?_append] using hu
      simp [Token.isBorder, isText_of_closes hcomplete.closes]

end Tree

namespace Node

open InteropStubs.Tree

/-- What opens a bracket is not broken. -/
theorem isBroken_of_opens {t : Token} {b : Bracket} (h : bracketOpenedBy? t = some b) : t.isBroken = false := by
  unfold Token.isBroken
  split
  · next hkind => simp [bracketOpenedBy?, Token.isText, Token.isDirective, hkind] at h
  · rfl

/-- What closes a bracket is not broken. -/
theorem isBroken_of_closes {t : Token} {b : Bracket} (h : bracketClosedBy? t = some b) : t.isBroken = false := by
  unfold Token.isBroken
  split
  · next hkind => simp [bracketClosedBy?, Token.isText, Token.isDirective, hkind] at h
  · rfl

mutual

/-- In a tree without fault no token is broken. -/
theorem isBroken_of_faultIn? : ∀ t : Tree, t.Matched → faultIn? t = none → ∀ u ∈ t.tokens, u.isBroken = false
  | .token t, _, h => fun u hu => by
      obtain rfl := List.mem_singleton.mp hu
      rw [← isSome_faultIn?_token, h]
      rfl
  | .group b opening inner (.present closing), .group hopen hclose hinner, h => by
      rw [faultIn?, Option.orElse_eq_or, Option.or_eq_none_iff] at h
      have hinside := isBroken_of_fault? inner hinner h.1
      refine List.forall_mem_cons.mpr ⟨isBroken_of_opens hopen, List.forall_mem_append.mpr ⟨hinside, ?_⟩⟩
      exact List.forall_mem_singleton.mpr (isBroken_of_closes (hclose closing rfl))
  | .group b opening inner (.absent place), _, h => by
      rw [faultIn?, Option.orElse_eq_or, Option.or_eq_none_iff] at h
      exact absurd h.2 nofun

/-- Where there is no fault, no token is broken. -/
theorem isBroken_of_fault? : ∀ ts : List Tree, (∀ t ∈ ts, t.Matched) → fault? ts = none →
    ∀ u ∈ tokensAll ts, u.isBroken = false
  | [], _, _ => nofun
  | t :: ts, hmatched, h => by
      obtain ⟨ht, hts⟩ := List.forall_mem_cons.mp hmatched
      rw [fault?, Option.orElse_eq_or, Option.or_eq_none_iff] at h
      exact List.forall_mem_append.mpr ⟨isBroken_of_faultIn? t ht h.1, isBroken_of_fault? ts hts h.2⟩

end

end Node

/-! ### What is in front of nodes -/

/-- The place just behind a stretch of the source. -/
def Span.stop (s : Span) : Nat :=
  s.start + s.text.length

namespace Node

open InteropStubs.Tree

/-- Whether a node is of a kind that has a body. -/
def isContainer : Node → Bool
  | namespaceBlock .. | interface .. => true
  | _ => false

/-- Among the tokens of a file, the brace that closes the body of a node: the node ends with it, or with a
semicolon that touches it. -/
structure ClosedBy (n : Node) (us : List Token) (t : Token) : Prop where
  container : n.isContainer = true
  mem : t ∈ us
  kind : t.kind = .mark
  text : t.text = closeBrace
  stop : t.stop = n.span.stop ∨ ∃ s ∈ us, s.isText ";" = true ∧ s.start = t.stop ∧ s.stop = n.span.stop

/-- The places of a node: where it starts, and where its body closes. -/
def HasPlace (us : List Token) (n : Node) (p : Nat) : Prop :=
  p = n.span.start ∨ ∃ t, n.ClosedBy us t ∧ p = t.start

variable {us : List Token} {cs : List Char} {run inner front ts : List Tree} {n : Node} {t u : Token}
  {p depth : Nat} {scope : Scope} {read : List Tree → List Node}

/-- The last token of a run stops where the run does. -/
theorem stop_spanOf (hcut : Token.CutFrom 0 cs us) (hrun : tokensAll run <:+: us)
    (hl : (tokensAll run).getLast? = some t) : (spanOf run).stop = t.stop := by
  have hne : run ≠ [] := by
    rintro rfl
    exact absurd hl nofun
  obtain ⟨u, mid, htokens, hspan⟩ := exists_span hne
  obtain ⟨before, after, rfl⟩ := hrun
  rw [htokens, List.append_assoc, List.cons_append] at hcut
  obtain ⟨pre, rest, -, hcut⟩ := hcut.exists_suffix
  rw [hspan]
  exact hcut.start_add_length_verbatim (htokens ▸ hl)

/-- Only the token in front of the last one of a run stops where that one starts. -/
theorem eq_of_stop_eq_start {front : List Token} {v : Token} (hcut : Token.CutFrom 0 cs us)
    (hrun : tokensAll run <:+: us) (hend : tokensAll run = front ++ [u, v]) (ht : t ∈ us)
    (hstop : v.start = t.stop) : t = u := by
  obtain ⟨before, after, rfl⟩ := hrun
  have hsplit : before ++ tokensAll run ++ after = (before ++ front) ++ u :: v :: after := by
    simp [hend]
  rw [hsplit] at hcut ht
  exact hcut.eq_of_stop_eq_start ht hstop.symm

/-- A run ends with the brace that closes its node, or with a semicolon that touches the brace. -/
theorem ClosedBy.last (h : n.ClosedBy us t) (hcut : Token.CutFrom 0 cs us) (hrun : tokensAll run <:+: us)
    (hspan : n.span = spanOf run) {before : List Token} (hend : tokensAll run = before ++ [u]) :
    t = u ∨ u.isText ";" = true ∧ u.start = t.stop := by
  have hstop : (spanOf run).stop = u.stop := stop_spanOf hcut hrun (by simp [hend])
  rw [← hspan] at hstop
  have hmem : u ∈ us := hrun.subset (by simp [hend])
  rcases h.stop with heq | ⟨s, hs, hsemicolon, hstart, heq⟩
  · exact .inl (hcut.eq_of_stop_eq h.mem hmem (heq.trans hstop))
  · obtain rfl := hcut.eq_of_stop_eq hs hmem (heq.trans hstop)
    exact .inr ⟨hsemicolon, hstart⟩

/-- What closes a node is a brace. -/
theorem ClosedBy.isText (h : n.ClosedBy us t) : t.isText closeBrace = true := by
  simp [Token.isText, h.kind, h.text]

theorem not_semicolon_of_brace (h : t.isText closeBrace = true) : t.isText ";" = false := by
  have htext : t.text = closeBrace := by simpa using (Bool.and_eq_true_iff.mp h).2
  simp [Token.isText, htext]

theorem bracketClosedBy?_of_brace (h : t.isText closeBrace = true) : bracketClosedBy? t = some .curly := by
  have htext : t.text = closeBrace := by simpa using (Bool.and_eq_true_iff.mp h).2
  have hround : t.isText ")" = false := by simp [Token.isText, htext]
  have hsquare : t.isText "]" = false := by simp [Token.isText, htext]
  simp [bracketClosedBy?, hround, hsquare, h]

/-- In front of a semicolon that ends a header no brace stands. -/
theorem ClosedBy.not_semicolon (h : n.ClosedBy us t) (hcut : Token.CutFrom 0 cs us)
    (hrun : tokensAll (front ++ [.token u]) <:+: us) (hcomplete : ∀ g ∈ front, g.Complete) (hne : front ≠ [])
    (hfront : ∀ h ∈ bodyHeads, ∀ g ∈ front, ¬ h.of g) : u.start ≠ t.stop := by
  intro hstart
  obtain ⟨more, g, rfl⟩ := List.eq_nil_or_concat front |>.resolve_left hne
  rw [List.concat_eq_append] at hrun hcomplete hfront
  have hg : g.Complete := hcomplete g (by simp)
  match g, hg with
  | .token v, _ =>
      obtain rfl : t = v := eq_of_stop_eq_start hcut hrun (by simp [tokens]; rfl) h.mem hstart
      exact hfront (.mark closeBrace) (by decide) (.token t) (by simp) ⟨h.kind, h.text⟩
  | .group b opening inner (.present closing), hg =>
      have hend : tokensAll (more ++ [.group b opening inner (.present closing)] ++ [.token u]) =
          (tokensAll more ++ opening :: tokensAll inner) ++ [closing, u] := by
        simp [tokens, Closing.tokens]
      obtain rfl : t = closing := eq_of_stop_eq_start hcut hrun hend h.mem hstart
      obtain rfl : b = .curly := Option.some.inj (hg.closes.symm.trans (bracketClosedBy?_of_brace h.isText))
      exact hfront (.group .curly) (by decide) (.group .curly opening inner (.present t)) (by simp) rfl
  | .group b opening inner (.absent _), hg => exact absurd hg.closed Bool.false_ne_true

/-- **The brace that closes the body of a node** closes the group that the body comes from. -/
theorem ClosedBy.exists_group (h : n.ClosedBy us t) (hcut : Token.CutFrom 0 cs us)
    (hrun : tokensAll run <:+: us) (hspan : n.span = spanOf run) (hcomplete : ∀ g ∈ run, g.Complete)
    (hbody : Body run inner) :
    ∃ front opening after, run = front ++ .group .curly opening inner (.present t) :: after := by
  -- `t` is the last token of the run or the one in front of a semicolon, never a brace further in.
  cases hbody with
  | @braces front opening closing after hbraces hafter =>
      subst hbraces
      have hclosing := isText_of_closes (hcomplete (.group .curly opening inner (.present closing)) (by simp)).closes
      rcases hafter with rfl | ⟨u, rfl, hu⟩
      · have hend : tokensAll (front ++ [.group .curly opening inner (.present closing)]) =
            (tokensAll front ++ opening :: tokensAll inner) ++ [closing] := by
          simp [tokens, Closing.tokens]
        rcases h.last hcut hrun hspan hend with rfl | ⟨hsemicolon, -⟩
        · exact ⟨front, opening, [], rfl⟩
        · exact absurd hsemicolon (by simp [not_semicolon_of_brace hclosing])
      · have hend : tokensAll (front ++ [.group .curly opening inner (.present closing), .token u]) =
            (tokensAll front ++ opening :: tokensAll inner) ++ [closing, u] := by
          simp [tokens, Closing.tokens]
        rcases h.last hcut hrun hspan (hend.trans (List.append_cons ..)) with rfl | ⟨-, hstart⟩
        · exact absurd hu (by simp [not_semicolon_of_brace h.isText])
        · obtain rfl : t = closing := eq_of_stop_eq_start hcut hrun hend h.mem hstart
          exact ⟨front, opening, _, rfl⟩
  | @semicolon front u hsemicolon hu hne hfront =>
      subst hsemicolon
      have hend : tokensAll (front ++ [.token u]) = tokensAll front ++ [u] := by simp [tokens]
      rcases h.last hcut hrun hspan hend with rfl | ⟨-, hstart⟩
      · exact absurd hu (by simp [not_semicolon_of_brace h.isText])
      · have hfaultless : ∀ g ∈ front, g.Complete := fun g hg => hcomplete g (List.mem_append_left _ hg)
        exact absurd hstart (h.not_semicolon hcut hrun hfaultless hne hfront)

/-! #### All levels -/

/-- A stubbed node has no members, or those in its body. -/
theorem Stubs.body (h : Stubs read scope run n) :
    (n.isContainer = false ∧ n.members = []) ∨ ∃ inner, Body run inner ∧ n.members = read inner := by
  cases h with
  | namespaceBlock h => exact .inr ⟨_, body_of_namespaceBlock h, rfl⟩
  | interface h => exact .inr ⟨_, body_of_interface h, rfl⟩
  | usingDirective | method | property => exact .inl ⟨rfl, rfl⟩

/-- The runs of a list in which all declarations go into stubs. -/
theorem stubs_of_mem_runs (h : ∀ k ∈ all (ofTreesWithin (depth + 1) scope ts), k.isStubbed = true)
    (hrun : run ∈ Tree.runs scope ts) :
    Stubs (ofTreesWithin depth .body) scope run (ofRun (ofTreesWithin depth) scope run) :=
  stubs_of_ofRun ((ofTreesWithin_eq_map h).2 run hrun)

/-- The trees of a run are complete if all are. -/
theorem complete_of_mem_runs (h : ∀ t ∈ ts, t.Complete) (hrun : run ∈ Tree.runs scope ts) :
    ∀ t ∈ run, t.Complete := fun t ht =>
  h t (flatten_runs scope ts ▸ List.mem_flatten.mpr ⟨run, hrun, ht⟩)

/-- Behind some declarations. -/
theorem ended_of_isStubbed (h : ∀ k ∈ all (ofTreesWithin (depth + 1) scope ts), k.isStubbed = true)
    (hcomplete : ∀ t ∈ ts, t.Complete) {before after : List (List Tree)}
    (hruns : Tree.runs scope ts = before ++ after) : Token.Ended (before.flatMap tokensAll) := by
  have hall : ∀ run ∈ before, Token.Ended (tokensAll run) := fun run hrun => by
    have hrun : run ∈ Tree.runs scope ts := hruns ▸ List.mem_append_left _ hrun
    exact (stubs_of_mem_runs h hrun).ends.ended (complete_of_mem_runs hcomplete hrun)
  clear hruns
  induction before with
  | nil => exact .nil
  | cons run before ih =>
      obtain ⟨hrun, hbefore⟩ := List.forall_mem_cons.mp hall
      exact hrun.append (ih hbefore)

/-- A declaration starts with a token of which no phrase asks whether it touches what is in front of it. -/
theorem Stubs.border (h : Stubs read scope run n) (hne : run ≠ []) (hcomplete : ∀ t ∈ run, t.Complete) :
    Token.Border n.span.start (tokensAll run) := by
  obtain ⟨t, rest, rfl⟩ := List.exists_cons_of_ne_nil hne
  obtain ⟨more, hmore⟩ := t.tokensAll_eq_head_cons rest
  refine ⟨[], t.head, _, hmore, by rw [h.span_eq]; rfl, .nil, fun m hm hkind htext => ?_⟩
  match t, h.not_begins (List.mem_cons_of_mem _ hm), hcomplete t List.mem_cons_self with
  | .token t, hnot, _ => exact hnot ⟨hkind, htext⟩
  | .group b opening inner closing, _, hgroup =>
      have hopens : bracketOpenedBy? opening = some b := hgroup.opens
      have hkind : opening.kind = .mark := hkind
      have htext : opening.text = m := htext
      have hnone : ∀ m ∈ Token.touchy, (m == "(") = false ∧ (m == "[") = false ∧ (m == openBrace) = false := by
        decide
      obtain ⟨h₁, h₂, h₃⟩ := hnone m hm
      simp [bracketOpenedBy?, Token.isText, Token.isDirective, hkind, htext, h₁, h₂, h₃] at hopens

/-- A place is a seam of trees, and a border of their tokens. -/
def IsSeam (p : Nat) (depth : Nat) (scope : Scope) (ts : List Tree) : Prop :=
  SeamIn p depth scope ts ∧ Token.Border p (tokensAll ts)

/-- The place where the body of a run closes. -/
theorem Body.seam_of_closedBy (hbody : Body run inner) (h : n.ClosedBy us t) (hcut : Token.CutFrom 0 cs us)
    (hrun : tokensAll run <:+: us) (hspan : n.span = spanOf run) (hcomplete : ∀ g ∈ run, g.Complete)
    (hinner : tokensAll inner ≠ [] → Token.Ended (tokensAll inner)) {q : List Tree → Prop} :
    HasSeam t.start q run ∧ Token.Border t.start (tokensAll run) := by
  obtain ⟨front, opening, after, rfl⟩ := h.exists_group hcut hrun hspan hcomplete hbody
  obtain ⟨hfront, hgroup⟩ := List.forall_mem_append.mp hcomplete
  have hopens := (hgroup _ List.mem_cons_self).opens
  refine ⟨.inr ⟨opening, inner, t, by simp, .inl rfl⟩, ?_⟩
  refine ⟨(tokensAll front ++ [opening]) ++ tokensAll inner, t, tokensAll after,
    by simp [tokens, Closing.tokens], rfl, (ended_of_opens hfront hopens).append ?_, fun m hm _ htext => ?_⟩
  · by_cases hnil : tokensAll inner = []
    · exact hnil ▸ .nil
    · exact hinner hnil
  · exact absurd (h.text ▸ htext ▸ hm) (by decide)

/-- The places of a declaration and of those in its body. -/
theorem seam_of_run (hcut : Token.CutFrom 0 cs us)
    (ih : ∀ inner, (∀ t ∈ inner, t.Complete) → Tree.depth inner < depth → tokensAll inner <:+: us →
      (∀ k ∈ all (ofTreesWithin depth .body inner), k.isStubbed = true) →
        ∀ n ∈ all (ofTreesWithin depth .body inner), n.HasPlace us p → IsSeam p depth .body inner)
    (hne : run ≠ []) (hcomplete : ∀ t ∈ run, t.Complete) (hdepth : Tree.depth run ≤ depth)
    (hrun : tokensAll run <:+: us)
    (hstubs : Stubs (ofTreesWithin depth .body) scope run (ofRun (ofTreesWithin depth) scope run))
    (hstubbed : ∀ k ∈ all (ofRun (ofTreesWithin depth) scope run).members, k.isStubbed = true)
    (hn : n ∈ allIn (ofRun (ofTreesWithin depth) scope run)) (hplace : n.HasPlace us p) :
    HasSeam p (SeamIn p depth .body) run ∧ Token.Border p (tokensAll run) := by
  -- The node itself ends where its run ends or at its brace. A node of its body is left to the induction hypothesis.
  rw [allIn_eq] at hn
  rcases List.mem_cons.mp hn with rfl | hmem
  · rcases hplace with rfl | ⟨t, hclosed, rfl⟩
    · exact ⟨.inl (by rw [hstubs.span_eq]; rfl), hstubs.border hne hcomplete⟩
    · rcases hstubs.body with ⟨hnone, -⟩ | ⟨inner, hbody, hmembers⟩
      · exact absurd hclosed.container (by simp [hnone])
      · refine hbody.seam_of_closedBy hclosed hcut hrun hstubs.span_eq hcomplete fun hinner => ?_
        rw [hmembers] at hstubbed
        cases hbody with
        | semicolon _ _ _ _ hnil => exact absurd (hnil ▸ rfl) hinner
        | @braces front opening closing after hbraces =>
            have hgroup : Tree.group .curly opening inner (.present closing) ∈ run := by simp [hbraces]
            obtain ⟨d, rfl⟩ : ∃ d, depth = d + 1 :=
              Nat.exists_eq_add_one.mpr (Nat.zero_lt_of_lt ((depth_lt_of_mem hgroup).trans_le hdepth))
            have hended := ended_of_isStubbed hstubbed (hcomplete _ hgroup).below (List.append_nil _).symm
            rwa [tokensAll_runs] at hended
  · rcases hstubs.body with ⟨-, hnone⟩ | ⟨inner, hbody, hmembers⟩
    · rw [hnone] at hmem
      exact absurd hmem List.not_mem_nil
    · rw [hmembers] at hmem hstubbed
      cases hbody with
      | semicolon _ _ _ _ hnil =>
          subst hnil
          cases depth with
          | zero => exact absurd hmem List.not_mem_nil
          | succ depth =>
              obtain ⟨-, front, t, back, heq, -⟩ :=
                ih [] nofun (Nat.succ_pos _) List.nil_infix hstubbed n hmem hplace
              exact absurd heq (by simp)
      | @braces front opening closing after hbraces =>
          subst hbraces
          have hgroup : Tree.group .curly opening inner (.present closing) ∈
              front ++ .group .curly opening inner (.present closing) :: after := by simp
          obtain ⟨hseam, hborder⟩ := ih inner (hcomplete _ hgroup).below
            ((depth_lt_of_mem hgroup).trans_le hdepth) ((tokensAll_isInfix_of_mem hgroup).trans hrun) hstubbed
            n hmem hplace
          refine ⟨.inr ⟨opening, inner, closing, hgroup, .inr hseam⟩, ?_⟩
          obtain ⟨hfront, -⟩ := List.forall_mem_append.mp hcomplete
          have hbehind := (hborder.append_left (ended_of_opens hfront (hcomplete _ hgroup).opens)).append_right
            (closing :: tokensAll after)
          simpa [tokens, Closing.tokens] using hbehind

/-- **The places of declarations are seams.** -/
theorem seam_of_hasPlace (hcut : Token.CutFrom 0 cs us) (depth : Nat) : ∀ scope ts, (∀ t ∈ ts, t.Complete) →
    Tree.depth ts < depth → tokensAll ts <:+: us →
      (∀ k ∈ all (ofTreesWithin depth scope ts), k.isStubbed = true) →
        ∀ n ∈ all (ofTreesWithin depth scope ts), n.HasPlace us p → IsSeam p depth scope ts := by
  induction depth with
  | zero => exact fun _ _ _ _ _ _ n hn => absurd hn List.not_mem_nil
  | succ depth ih =>
      intro scope ts hcomplete hdepth htokens hstubbed n hn hplace
      obtain ⟨heq, hruns⟩ := ofTreesWithin_eq_map hstubbed
      rw [heq, all_eq_flatMap, List.flatMap_map] at hn
      obtain ⟨run, hrun, hn⟩ := List.mem_flatMap.mp hn
      have hwithin : tokensAll run <:+: tokensAll ts := by
        obtain ⟨before, after, hsplit⟩ := List.append_of_mem hrun
        refine ⟨before.flatMap tokensAll, after.flatMap tokensAll, ?_⟩
        rw [← tokensAll_runs scope ts, hsplit]
        simp
      obtain ⟨hseam, hborder⟩ := seam_of_run hcut (ih .body) (ne_nil_of_mem_cut hrun)
        (complete_of_mem_runs hcomplete hrun)
        ((depth_le_of_mem_runs hrun).trans (Nat.lt_succ_iff.mp hdepth)) (hwithin.trans htokens)
        (stubs_of_mem_runs hstubbed hrun)
        (fun k hk => hruns run hrun k (allIn_eq _ ▸ List.mem_cons_of_mem _ hk)) hn hplace
      refine ⟨⟨run, hrun, hseam⟩, ?_⟩
      obtain ⟨before, after, hsplit⟩ := List.append_of_mem hrun
      have hbehind := (hborder.append_left (ended_of_isStubbed hstubbed hcomplete hsplit)).append_right
        (after.flatMap tokensAll)
      rw [← tokensAll_runs scope ts, hsplit]
      simpa using hbehind

end Node

/-! ### Seams -/

namespace File

variable {f : File} {p : Nat}

/-- A place between the declarations of a file: in front of one of them, in front of the brace that closes the
body of one, or at the end. -/
inductive Seam (f : File) : Nat → Prop
  | declaration {n : Node} (hn : n ∈ Node.all f.nodes) : Seam f n.span.start
  | closing {n : Node} {t : Token} (hn : n ∈ Node.all f.nodes) (ht : n.ClosedBy (Token.ofChars f.text) t) :
      Seam f t.start
  | stop : Seam f f.text.length

variable {source : String}

/-- The trees of a file. -/
def trees (source : String) : List Tree :=
  Tree.ofTokens (Token.ofChars source.toList)

/-- A source all of whose nodes are stubbed has no interpreter line. -/
theorem nodes_eq (hstubbed : ∀ k ∈ Node.all (read source).nodes, k.isStubbed = true) :
    (read source).nodes = Node.ofTreesWithin (Tree.depth (trees source) + 1) .file (trees source) :=
  Node.ofTrees_of_noShebang (Node.noShebang_of_isStubbed hstubbed)

/-- Its runs have no fault. -/
theorem fault?_of_isStubbed (hstubbed : ∀ k ∈ Node.all (read source).nodes, k.isStubbed = true) {run : List Tree}
    (hrun : run ∈ Tree.runs .file (trees source)) : Node.fault? run = none := by
  rw [nodes_eq hstubbed] at hstubbed
  exact Node.fault?_of_ofRun (Node.hasError_of_isStubbed _ ((Node.ofTreesWithin_eq_map hstubbed).2 run hrun))

/-- Its trees are complete. -/
theorem complete_of_isStubbed (hstubbed : ∀ k ∈ Node.all (read source).nodes, k.isStubbed = true) :
    ∀ t ∈ trees source, t.Complete := by
  intro t ht
  refine ⟨Tree.matched_ofTokens _ t ht, ?_⟩
  obtain ⟨run, hrun, ht⟩ := List.mem_flatten.mp (Node.flatten_runs .file (trees source) ▸ ht)
  exact Tree.areClosed_iff.mp (Node.areClosed_of_fault? run (fault?_of_isStubbed hstubbed hrun)) t ht

/-- Nothing in a file is broken whose nodes go into stubs. -/
theorem unbroken_of_isStubbed (hstubbed : ∀ k ∈ Node.all (read source).nodes, k.isStubbed = true) :
    ∀ t ∈ Token.ofChars source.toList, t.isBroken = false := by
  intro t ht
  have htokens := Node.tokensAll_runs .file (trees source)
  rw [trees, Tree.tokensAll_ofTokens] at htokens
  obtain ⟨run, hrun, ht⟩ := List.mem_flatMap.mp (htokens ▸ ht)
  have hcomplete := Node.complete_of_mem_runs (complete_of_isStubbed hstubbed) hrun
  exact Node.isBroken_of_fault? run (fun t ht => (hcomplete t ht).matched) (fault?_of_isStubbed hstubbed hrun) t ht

/-- **It is ended**, so that another source may stand below. -/
theorem ended_of_isStubbed (hstubbed : ∀ k ∈ Node.all (read source).nodes, k.isStubbed = true) :
    Token.Ended (Token.ofChars source.toList) := by
  have hcomplete := complete_of_isStubbed hstubbed
  rw [nodes_eq hstubbed] at hstubbed
  have hended := Node.ended_of_isStubbed hstubbed hcomplete (List.append_nil _).symm
  rwa [Node.tokensAll_runs, trees, Tree.tokensAll_ofTokens] at hended

/-- **A seam in front of the end of a file** is a seam of its trees. -/
theorem Seam.isSeam (hstubbed : ∀ k ∈ Node.all (read source).nodes, k.isStubbed = true)
    (h : (read source).Seam p) :
    p = source.toList.length ∨ Node.IsSeam p (Tree.depth (trees source) + 1) .file (trees source) := by
  have hseam {n : Node} (hn : n ∈ Node.all (read source).nodes)
      (hplace : n.HasPlace (Token.ofChars source.toList) p) :
      Node.IsSeam p (Tree.depth (trees source) + 1) .file (trees source) := by
    have hcomplete := complete_of_isStubbed hstubbed
    have heq : Tree.tokensAll (trees source) = Token.ofChars source.toList := Tree.tokensAll_ofTokens _
    have htokens : Tree.tokensAll (trees source) <:+: Token.ofChars source.toList := heq ▸ List.infix_rfl
    have hnodes := nodes_eq hstubbed
    rw [hnodes] at hstubbed hn
    exact Node.seam_of_hasPlace (Token.cutFrom_ofChars _) _ .file (trees source) hcomplete (Nat.lt_succ_self _)
      htokens hstubbed n hn hplace
  cases h with
  | declaration hn => exact .inr (hseam hn (.inl rfl))
  | closing hn ht => exact .inr (hseam hn (.inr ⟨_, ht, rfl⟩))
  | stop => exact .inl rfl

end File

end InteropStubs
