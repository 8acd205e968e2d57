import InteropStubs.Proofs.Token.Settle

/-!
# Where directives end

A directive takes the line break at which its arguments are complete, and it looks at nothing behind it.
So it is read alike of two texts that agree, if it does not go over the stop that they have in common
(`Directive.extent_settle`).
-/

namespace InteropStubs

open Text Scan

namespace Scan

variable {n k b : Nat} {cs ds : List Char} {p : Char → Bool}

/-- A mark without borders that begins a text ends in front of the border. -/
theorem Agree.length_le {m : List Char} (h : Agree n cs ds) (hm : isFree m = true)
    (hbegin : m.isPrefixOf cs = true) : m.length ≤ n := by
  induction m generalizing n cs ds with
  | nil => exact Nat.zero_le n
  | cons a m ih =>
      obtain ⟨ha, hm⟩ : a ∉ stops ∧ isFree m = true := by simpa [isFree] using hm
      cases h with
      | stop hd =>
          have heq : a = _ := eq_of_beq (Bool.and_eq_true_iff.mp hbegin).1
          exact absurd hd (heq ▸ ha)
      | cons c h => exact Nat.succ_le_succ (ih h hm (Bool.and_eq_true_iff.mp hbegin).2)

/-- Behind a gap no comment begins that is closed. -/
theorem comment?_drop_gapOf (hb : cs.length ≤ b) : comment? (cs.drop (gapOf p b cs).size) = none := by
  induction b generalizing cs with
  | zero =>
      obtain rfl := List.length_eq_zero_iff.mp (Nat.le_zero.mp hb)
      rfl
  | succ b ih =>
      cases cs with
      | nil => rfl
      | cons c cs =>
          rw [gapOf]
          split
          · exact ih (Nat.le_of_succ_le_succ hb)
          · split
            · next size hsize =>
              have htwo := two_le_of_comment? hsize
              rw [Nat.add_comm, ← List.drop_drop]
              exact ih (by simp at hb ⊢; omega)
            · next hnone => exact hnone

/-- A word has a character. -/
theorem word?_pos (h : word? cs = some k) : 1 ≤ k := by
  have hplain {cs : List Char} {k : Nat} (h : plainWord? cs = some k) : 1 ≤ k := by
    unfold plainWord? at h
    split at h
    · exact absurd h nofun
    · split at h
      · exact Option.some.inj h ▸ Nat.succ_pos _
      · exact absurd h nofun
    · obtain ⟨-, h⟩ := Option.ite_none_right_eq_some.mp h
      exact Option.some.inj h ▸ Nat.succ_pos _
  unfold word? at h
  split at h
  · obtain ⟨m, -, rfl⟩ := Option.map_eq_some_iff.mp h
    exact Nat.succ_pos m
  · exact hplain h

/-- An integer has a character. -/
theorem integer?_pos (h : integer? cs = some k) : 1 ≤ k := by
  rw [integer?_eq] at h
  obtain ⟨hbody, h⟩ := Option.ite_none_left_eq_some.mp h
  rw [beq_iff_eq] at hbody
  have := Option.some.inj h
  omega

/-- A string has a character. -/
theorem string?_pos (h : string? cs = some k) : 1 ≤ k := by
  unfold string? at h
  split at h
  · obtain ⟨m, -, rfl⟩ := Option.map_eq_some_iff.mp h
    omega
  · dsimp only at h
    split at h
    all_goals
      obtain ⟨m, -, rfl⟩ := Option.map_eq_some_iff.mp h
      omega
  · exact absurd h nofun

end Scan

namespace Directive

variable {n k b b' : Nat} {cs ds : List Char} {d : Directive} {g : Gap}

/-! ### Arguments -/

/-- The arguments that are neither words nor numbers nor strings. -/
def otherArgument? (cs : List Char) : Option (Argument × Nat) :=
  match cs with
  | '\x27' :: rest => (characterRest? rest).map fun size => (.character, size + 1)
  | _ => (marks.find? fun m => m.toList.isPrefixOf cs).map fun m => (.mark m, m.toList.length)

/-- An argument, alternative by alternative. -/
theorem argument?_eq (cs : List Char) :
    argument? cs =
      if let some size := word? cs then some (.word (String.ofList (cs.take size)), size)
      else if let some size := number? cs then
        if integer? cs = some size then some (.integer, size) else none
      else if let some size := string? cs then some (.string, size)
      else otherArgument? cs :=
  rfl

/-- What does not begin as a character literal does is a mark. -/
theorem otherArgument?_of_ne {c : Char} (hc : c ≠ '\x27') (cs : List Char) :
    otherArgument? (c :: cs) =
      (marks.find? fun m => m.toList.isPrefixOf (c :: cs)).map fun m => (.mark m, m.toList.length) := by
  unfold otherArgument?
  split
  · next heq => exact absurd (List.cons.inj heq).1 hc
  · rfl

/-- An argument has a character. -/
theorem argument?_pos {a : Argument} (h : argument? cs = some (a, k)) : 1 ≤ k := by
  rw [argument?_eq] at h
  split at h
  · next hword => exact (Prod.mk.inj (Option.some.inj h)).2 ▸ word?_pos hword
  · split at h
    · obtain ⟨hinteger, h⟩ := Option.ite_none_right_eq_some.mp h
      exact (Prod.mk.inj (Option.some.inj h)).2 ▸ integer?_pos hinteger
    · split at h
      · next hstring => exact (Prod.mk.inj (Option.some.inj h)).2 ▸ string?_pos hstring
      · unfold otherArgument? at h
        split at h
        · obtain ⟨m, -, h⟩ := Option.map_eq_some_iff.mp h
          exact (Prod.mk.inj h).2 ▸ Nat.succ_pos m
        · obtain ⟨m, hm, h⟩ := Option.map_eq_some_iff.mp h
          have hne : ∀ m ∈ marks, 1 ≤ m.toList.length := by decide
          exact (Prod.mk.inj h).2 ▸ hne m (List.mem_of_find?_eq_some hm)

/-- A comment is no argument. -/
theorem argument?_comment (hopen : ['/', '*'].isPrefixOf cs = true) : argument? cs = none := by
  obtain ⟨rest, rfl⟩ := List.isPrefixOf_iff_prefix.mp hopen
  have hstart : isIdentifierStart '/' = false := by decide
  have hword : word? ('/' :: '*' :: rest) = none := by simp [word?, plainWord?, hstart]
  have hnumber : number? ('/' :: '*' :: rest) = none := by
    simp [number?, integer?_eq, prefixedDigits, decimal, real?_eq, fraction]
  have hstring : string? ('/' :: '*' :: rest) = none := rfl
  have hmarks : (marks.find? fun m => m.toList.isPrefixOf ('/' :: '*' :: rest)) = none := by
    simp [marks, List.isPrefixOf]
  simp [argument?_eq, otherArgument?_of_ne, hword, hnumber, hstring, hmarks]

/-- Where a string begins that is no argument, there is no argument. -/
theorem otherArgument?_string (h : beginsString cs = true) : otherArgument? cs = none := by
  rcases Bool.or_eq_true_iff.mp h with hquote | hverbatim
  · obtain ⟨rest, rfl⟩ := List.isPrefixOf_iff_prefix.mp hquote
    simp [otherArgument?_of_ne, marks, List.isPrefixOf]
  · obtain ⟨rest, rfl⟩ := List.isPrefixOf_iff_prefix.mp hverbatim
    simp [otherArgument?_of_ne, marks, List.isPrefixOf]

/-- An argument that is no word, integer or string and ends in front of the border is the same one. -/
theorem otherArgument?_settle {a : Argument} (h : Agree n cs ds) (ha : otherArgument? cs = some (a, k))
    (hle : k ≤ n) : otherArgument? ds = some (a, k) := by
  have hmarks : ∀ m ∈ marks, isFree m.toList.dropLast = true := by decide
  have hfind := h.find?_isPrefixOf_eq hmarks
  cases h with
  | @stop d hd =>
      have hne : ∀ d ∈ stops, d ≠ '\x27' := forall_mem_stops.mpr (by decide)
      rwa [otherArgument?_of_ne (hne d hd), ← hfind, ← otherArgument?_of_ne (hne d hd)]
  | cons c h =>
      by_cases hc : c = '\x27'
      · subst hc
        obtain ⟨m, hm, ha⟩ := Option.map_eq_some_iff.mp ha
        obtain ⟨rfl, rfl⟩ := Prod.mk.inj ha
        simp only [otherArgument?]
        rw [characterRest?_settle h hm (Nat.le_of_succ_le_succ hle), Option.map_some]
      · rwa [otherArgument?_of_ne hc, ← hfind, ← otherArgument?_of_ne hc]

/-- **An argument** that ends in front of the border is the same one. -/
theorem argument?_settle {a : Argument} (h : Agree n cs ds) (ha : argument? cs = some (a, k)) (hle : k ≤ n) :
    argument? ds = some (a, k) := by
  rw [argument?_eq] at ha ⊢
  rw [← word?_agree h, ← number?_agree h, ← integer?_agree h]
  split at ha
  · obtain ⟨rfl, rfl⟩ := Prod.mk.inj (Option.some.inj ha)
    rw [h.take_eq (by omega)]
  · split at ha
    · exact ha
    · split at ha
      · next hstring =>
        obtain ⟨rfl, rfl⟩ := Prod.mk.inj (Option.some.inj ha)
        rw [string?_settle h hstring hle]
      · have hnot : beginsString cs = false := by
          by_contra hbegins
          rw [otherArgument?_string (Bool.not_eq_false _ ▸ hbegins)] at ha
          exact absurd ha nofun
        rw [beginsString_agree h] at hnot
        rw [string?_of_not_begins hnot]
        exact otherArgument?_settle h ha hle

/-! ### Ends -/

/-- A directive ends at a line break where it is complete. Where it is not, it goes on behind the break, and
everywhere else with an argument. -/
theorem ending?_cases {read : List Argument} (h : ending? d read (b + 1) cs = some (g, true)) :
    ∃ c rest, cs.drop (gapInLine cs).size = c :: rest ∧ ['/', '*'].isPrefixOf (c :: rest) = false ∧
      ((c = '\n' ∧ d.isComplete read = true ∧ g = ⟨(gapInLine cs).size + 1, (gapInLine cs).hasComment⟩) ∨
        (c = '\n' ∧ d.isComplete read = false ∧ ∃ g', ending? d read b rest = some (g', true) ∧
          g = ⟨(gapInLine cs).size + 1 + g'.size, (gapInLine cs).hasComment || g'.hasComment⟩) ∨
        (c ≠ '\n' ∧ ∃ a size g', argument? (c :: rest) = some (a, size) ∧
          ending? d (read ++ [a]) b ((c :: rest).drop size) = some (g', true) ∧
          g = ⟨(gapInLine cs).size + size + g'.size, (gapInLine cs).hasComment || g'.hasComment⟩)) := by
  rw [ending?] at h
  dsimp only at h
  split at h
  · obtain ⟨-, h⟩ := Option.ite_none_right_eq_some.mp h
    exact absurd h nofun
  · next c rest hdrop =>
    refine ⟨c, rest, hdrop, ?_⟩
    split at h
    · next hc =>
      obtain rfl : c = '\n' := eq_of_beq hc
      refine ⟨rfl, ?_⟩
      split at h
      · next hcomplete => exact .inl ⟨rfl, hcomplete, (Prod.mk.inj (Option.some.inj h)).1.symm⟩
      · next hcomplete =>
        obtain ⟨⟨g', last⟩, hg', h⟩ := Option.map_eq_some_iff.mp h
        obtain ⟨rfl, rfl⟩ := Prod.mk.inj h
        exact .inr (.inl ⟨rfl, by simpa using hcomplete, g', hg', rfl⟩)
    · next hc =>
      split at h
      · next a size ha =>
        obtain ⟨⟨g', last⟩, hg', h⟩ := Option.map_eq_some_iff.mp h
        obtain ⟨rfl, rfl⟩ := Prod.mk.inj h
        refine ⟨?_, .inr (.inr ⟨by simpa using hc, a, size, g', ha, hg', rfl⟩)⟩
        by_contra hopen
        rw [argument?_comment (Bool.not_eq_false _ ▸ hopen)] at ha
        exact absurd ha nofun
      · exact absurd h nofun

/-- The end of a directive takes a character. -/
theorem ending?_pos {read : List Argument} (h : ending? d read b cs = some (g, true)) : 1 ≤ g.size := by
  cases b with
  | zero => exact absurd h nofun
  | succ b =>
      obtain ⟨c, rest, -, -, ⟨-, -, rfl⟩ | ⟨-, -, g', -, rfl⟩ | ⟨-, a, size, g', ha, -, rfl⟩⟩ := ending?_cases h
      · exact Nat.le_add_left 1 _
      · exact (Nat.le_add_left 1 _).trans (Nat.le_add_right _ _)
      · exact (argument?_pos ha).trans ((Nat.le_add_left _ _).trans (Nat.le_add_right _ _))

/-- **A directive that ends up to the border** ends alike. -/
theorem ending?_settle {read : List Argument} (h : Agree n cs ds) (hr : ending? d read b cs = some (g, true))
    (hle : g.size ≤ n + 1) (hb : g.size ≤ b') : ending? d read b' ds = some (g, true) := by
  induction b generalizing n cs ds read g b' with
  | zero => exact absurd hr nofun
  | succ b ih =>
      obtain ⟨b', rfl⟩ : ∃ m, b' = m + 1 := Nat.exists_eq_add_one.mpr ((ending?_pos hr).trans hb)
      obtain ⟨c, rest, hdrop, hopen, hcases⟩ := ending?_cases hr
      have hlead : (gapInLine cs).size ≤ n := by
        rcases hcases with ⟨-, -, rfl⟩ | ⟨-, -, g', -, rfl⟩ | ⟨-, a, size, g', ha, -, rfl⟩
        · exact Nat.le_of_succ_le_succ hle
        · dsimp only at hle
          omega
        · have := argument?_pos ha
          dsimp only at hle
          omega
      have hgap := gapInLine_settle h hlead (hdrop ▸ hopen)
      have hagree := h.drop hlead
      rw [hdrop] at hagree
      obtain ⟨rest', hdrop'⟩ : ∃ rest', ds.drop (gapInLine cs).size = c :: rest' :=
        List.head?_eq_some_iff.mp hagree.head?_eq.symm
      rw [hdrop'] at hagree
      rw [ending?]
      simp only [hgap, hdrop']
      rcases hcases with ⟨rfl, hcomplete, rfl⟩ | ⟨rfl, hcomplete, g', hg', rfl⟩ | ⟨hc, a, size, g', ha, hg', rfl⟩
      · simp [hcomplete]
      · have hpos := ending?_pos hg'
        dsimp only at hle hb
        generalize hm : n - (gapInLine cs).size = m at hagree
        cases hagree with
        | stop => omega
        | cons _ hrest =>
            have hending := ih hrest hg' (by omega) (show g'.size ≤ b' by omega)
            simp [hcomplete, hending]
      · have hpos := argument?_pos ha
        have hpos' := ending?_pos hg'
        dsimp only at hle hb
        have hending := ih (hagree.drop (k := size) (by omega)) hg' (by omega) (show g'.size ≤ b' by omega)
        have hargument := argument?_settle hagree ha (by omega)
        simp [hc, hargument, hending]

/-! ### Free text -/

/-- A slash in free text begins a comment or is passed over. -/
theorem freeText_slash (c : Char) (cs : List Char) :
    freeText ('/' :: c :: cs) = if c = '*' then 0 else freeText cs + 2 := by
  split
  · next hc => rw [hc, freeText]
  · next hc =>
    rw [freeText]
    exact hc

/-- A backslash in free text takes the line break behind it. -/
theorem freeText_back (cs : List Char) :
    freeText ('\\' :: cs) =
      if cs.head? = some '\n' then freeText cs.tail + 2
      else if ['\r', '\n'].isPrefixOf cs then freeText (cs.drop 2) + 3
      else freeText cs + 1 := by
  split
  · next hbreak =>
    obtain ⟨rest, rfl⟩ := List.head?_eq_some_iff.mp hbreak
    rfl
  · next hbreak =>
    split
    · next hreturn =>
      obtain ⟨rest, rfl⟩ := List.isPrefixOf_iff_prefix.mp hreturn
      rfl
    · next hreturn =>
      rw [freeText]
      · exact fun heq => absurd heq (by decide)
      · decide
      · exact fun rest _ heq => hbreak (heq ▸ rfl)
      · exact fun rest _ heq => hreturn (by simp [heq])
      · exact fun _ heq => absurd heq (by decide)
      · exact fun _ _ heq => absurd heq (by decide)

/-- A line break of two characters is seen alike. -/
theorem isPrefixOf_return_agree (h : Agree n cs ds) :
    ['\r', '\n'].isPrefixOf cs = ['\r', '\n'].isPrefixOf ds := by
  have hhead (c : Char) (cs : List Char) :
      ['\r', '\n'].isPrefixOf (c :: cs) = ('\r' == c && cs.head? == some '\n') := by
    cases cs with
    | nil => simp [List.isPrefixOf]
    | cons d cs =>
        have hcomm : ('\n' == d) = (d == '\n') := BEq.comm
        simp [List.isPrefixOf, hcomm]
  cases h with
  | @stop d hd =>
      have hne : ∀ d ∈ stops, ('\r' == d) = false := forall_mem_stops.mpr (by decide)
      simp [hhead, hne d hd]
  | cons c h => rw [hhead, hhead, h.head?_eq]

section

variable (ih : ∀ {m : Nat} {cs ds : List Char}, m ≤ n → Agree m cs ds → freeText cs ≤ m → freeText ds = freeText cs)

include ih

/-- Free text that goes on behind a slash, unless a comment ends it there. -/
theorem freeText_slash_settle (h : Agree n cs ds) (hle : freeText ('/' :: cs) ≤ n + 1) :
    freeText ('/' :: ds) = freeText ('/' :: cs) := by
  cases h with
  | stop hd =>
      rw [freeText_slash] at hle ⊢
      rw [freeText_slash]
      split
      · rfl
      · next hne =>
        rw [if_neg hne] at hle
        omega
  | cons e h =>
      rw [freeText_slash] at hle ⊢
      rw [freeText_slash]
      split
      · rfl
      · next hne =>
        rw [if_neg hne] at hle
        rw [ih (by omega) h (by omega)]

/-- Free text that goes on behind a backslash, on the next line if the backslash ends a line. -/
theorem freeText_back_settle (h : Agree n cs ds) (hle : freeText ('\\' :: cs) ≤ n + 1) :
    freeText ('\\' :: ds) = freeText ('\\' :: cs) := by
  rw [freeText_back] at hle
  rw [freeText_back, freeText_back, ← h.head?_eq, ← isPrefixOf_return_agree h]
  split
  · next hhead =>
    rw [if_pos hhead] at hle
    cases h with
    | stop => omega
    | cons e h => exact congrArg (· + 2) (ih (by omega) h (by simp only [List.tail_cons] at hle ⊢; omega))
  · next hhead =>
    rw [if_neg hhead] at hle
    split
    · next hreturn =>
      rw [if_pos hreturn] at hle
      rw [ih (by omega) (h.drop (k := 2) (by omega)) (by omega)]
    · next hreturn =>
      rw [if_neg hreturn] at hle
      rw [ih (Nat.le_refl n) h (by omega)]

end

/-- Free text that ends in front of the stop. -/
theorem freeText_settle (h : Agree n cs ds) (hle : freeText cs ≤ n) : freeText ds = freeText cs := by
  induction n using Nat.strongRecOn generalizing cs ds with
  | ind n ih =>
      cases h with
      | @stop d hd cs ds =>
          by_cases hbreak : d = '\n'
          · subst hbreak
            rfl
          · have hne : ∀ d ∈ stops, d ≠ '/' ∧ d ≠ '\\' := forall_mem_stops.mpr (by decide)
            rw [freeText_of_ne (hne d hd).1 hbreak (hne d hd).2] at hle
            exact absurd hle (Nat.not_succ_le_zero _)
      | @cons c n cs ds h =>
          have ih {m : Nat} {cs ds : List Char} (hm : m ≤ n) (h : Agree m cs ds) (hle : freeText cs ≤ m) :
              freeText ds = freeText cs := ih m (Nat.lt_succ_of_le hm) h hle
          by_cases hslash : c = '/'
          · exact hslash ▸ freeText_slash_settle ih h (hslash ▸ hle)
          by_cases hbreak : c = '\n'
          · subst hbreak
            rfl
          by_cases hback : c = '\\'
          · exact hback ▸ freeText_back_settle ih h (hback ▸ hle)
          · rw [freeText_of_ne hslash hbreak hback] at hle
            rw [freeText_of_ne hslash hbreak hback, freeText_of_ne hslash hbreak hback,
              ih (Nat.le_refl n) h (by omega)]

/-! ### Extents -/

/-- How many characters trivia takes or a directive that encloses declarations. -/
def Extent.size? : Extent → Option Nat
  | .trivia size | .enclosing size => some size
  | _ => none

/-- What is behind a directive that ends is its arguments. -/
theorem size?_extentBehind {name : String} {read : Gap} (hk : (extentBehind name d read cs).size? = some k) :
    ∃ g, ending? d [] (cs.length + 1) cs = some (g, true) ∧ k = read.size + g.size := by
  unfold extentBehind at hk
  split at hk
  · next g hending =>
    refine ⟨g, hending, ?_⟩
    dsimp only at hk
    split at hk <;> exact (Option.some.inj hk).symm
  · split at hk <;> exact absurd hk nofun
  · exact absurd hk nofun

/-- What is behind the name of a directive and ends up to the border is the same. -/
theorem extentBehind_settle {name : String} {read : Gap} (h : Agree n cs ds)
    (hk : (extentBehind name d read cs).size? = some k) (hle : k ≤ read.size + n + 1) :
    extentBehind name d read ds = extentBehind name d read cs := by
  obtain ⟨g, hending, rfl⟩ := size?_extentBehind hk
  have hlong := h.symm.lt_length
  rw [extentBehind, extentBehind, hending,
    ending?_settle h hending (by omega) (show g.size ≤ ds.length + 1 by omega)]

/-- The extent of a directive that takes free text. -/
def freeExtent (name : String) (size : Nat) (cs : List Char) : Extent :=
  let lead := if isTextOptional name then gapInLine cs else gap cs
  let text := cs.drop lead.size
  let taken := freeText text
  if taken == 0 && !isTextOptional name then .malformed
  else extentBehind name free ⟨size + lead.size + taken, lead.hasComment⟩ (text.drop taken)

/-- The three ways in which a directive goes on behind its name, which do not depend on the text. -/
theorem extentOf_cases (name : String) (size : Nat) (cs ds : List Char) :
    (extentOf name size cs = .enclosing size ∧ extentOf name size ds = .enclosing size) ∨
      (∃ d, extentOf name size cs = extentBehind name d ⟨size, false⟩ cs ∧
        extentOf name size ds = extentBehind name d ⟨size, false⟩ ds) ∨
      (extentOf name size cs = freeExtent name size cs ∧ extentOf name size ds = freeExtent name size ds) := by
  unfold extentOf
  split
  · exact .inl ⟨rfl, rfl⟩
  · exact .inl ⟨rfl, rfl⟩
  · exact .inr (.inl ⟨_, rfl, rfl⟩)
  · exact .inr (.inl ⟨_, rfl, rfl⟩)
  · exact .inr (.inl ⟨_, rfl, rfl⟩)
  · exact .inr (.inl ⟨_, rfl, rfl⟩)
  · exact .inr (.inl ⟨_, rfl, rfl⟩)
  · exact .inr (.inr ⟨rfl, rfl⟩)

/-- A directive does not go on with a comment that is not closed. -/
theorem ending?_comment {read : List Argument} (hopen : ['/', '*'].isPrefixOf cs = true)
    (hcomment : comment? cs = none) : ending? d read b cs = none := by
  cases b with
  | zero => rfl
  | succ b =>
      have hargument := argument?_comment hopen
      obtain ⟨rest, rfl⟩ := List.isPrefixOf_iff_prefix.mp hopen
      have hgap : gapInLine ('/' :: '*' :: rest) = ⟨0, false⟩ := by
        have hcomment : comment? ('/' :: '*' :: rest) = none := hcomment
        simp [gapInLine, gapOf, isBlank, hcomment]
      have hargument : argument? ('/' :: '*' :: rest) = none := hargument
      simp [ending?, hgap, hargument]

/-- Free text is empty where a comment is open. -/
theorem freeText_comment (hopen : ['/', '*'].isPrefixOf cs = true) : freeText cs = 0 := by
  obtain ⟨rest, rfl⟩ := List.isPrefixOf_iff_prefix.mp hopen
  rfl

/-- A directive with free text that ends up to the border is the same one. -/
theorem freeExtent_settle {name : String} {size : Nat} (h : Agree n cs ds)
    (hk : (freeExtent name size cs).size? = some k) (hle : k ≤ size + n + 1) :
    freeExtent name size ds = freeExtent name size cs := by
  unfold freeExtent at hk ⊢
  -- the gap in front of the text, whichever it is
  obtain ⟨p, hlead⟩ : ∃ p, ∀ cs, (if isTextOptional name then gapInLine cs else gap cs) = gapOf p cs.length cs := by
    cases isTextOptional name
    · exact ⟨_, fun _ => rfl⟩
    · exact ⟨_, fun _ => rfl⟩
  simp only [hlead] at hk ⊢
  split at hk
  · exact absurd hk nofun
  · next hmalformed =>
    obtain ⟨g, hending, hsize⟩ := size?_extentBehind hk
    have hpos := ending?_pos hending
    dsimp only at hsize
    have hopen : ['/', '*'].isPrefixOf (cs.drop (gapOf p cs.length cs).size) = false := by
      by_contra hopen
      rw [Bool.not_eq_false] at hopen
      rw [freeText_comment hopen, List.drop_zero,
        ending?_comment hopen (comment?_drop_gapOf (Nat.le_refl _))] at hending
      exact absurd hending nofun
    have hgap := gapOf_settle h (Nat.le_refl _) (Nat.le_refl _) (by omega) hopen
    have htext := h.drop (k := (gapOf p cs.length cs).size) (by omega)
    have htaken := freeText_settle htext (by omega)
    have hrest := htext.drop (k := freeText (cs.drop (gapOf p cs.length cs).size)) (by omega)
    rw [hgap, htaken, if_neg hmalformed, if_neg hmalformed]
    exact extentBehind_settle hrest hk (by dsimp only; omega)

/-- A directive by its name is the same one, if it ends up to the border. -/
theorem extentOf_settle {name : String} {size : Nat} (h : Agree n cs ds)
    (hk : (extentOf name size cs).size? = some k) (hle : k ≤ size + n + 1) :
    extentOf name size ds = extentOf name size cs := by
  rcases extentOf_cases name size cs ds with ⟨hcs, hds⟩ | ⟨d, hcs, hds⟩ | ⟨hcs, hds⟩
  · rw [hcs, hds]
  · rw [hcs] at hk
    rw [hcs, hds]
    exact extentBehind_settle h hk hle
  · rw [hcs] at hk
    rw [hcs, hds]
    exact freeExtent_settle h hk hle

/-- A directive that is no interpreter line: blanks, its name and what is behind it. -/
theorem extent_of_ne (h : cs.head? ≠ some '!') :
    extent cs =
      let blanks := countWhile (fun c => c == ' ' || c == '\t') cs
      match names.find? fun name => name.toList.isPrefixOf (cs.drop blanks) with
      | some name => extentOf name (blanks + name.toList.length) ((cs.drop blanks).drop name.toList.length)
      | none => .malformed := by
  unfold extent
  split
  · exact absurd rfl h
  · rfl

/-- **A directive** that goes at most over the stop. -/
theorem extent_settle (h : Agree n cs ds) (hk : (extent cs).size? = some k) (hle : k ≤ n + 1) :
    extent ds = extent cs := by
  have hhead : cs.head? ≠ some '!' := by
    intro hhead
    obtain ⟨rest, rfl⟩ := List.head?_eq_some_iff.mp hhead
    exact absurd hk nofun
  obtain ⟨heq, hblanks⟩ := h.takeWhile_eq (p := fun c => c == ' ' || c == '\t') (forall_mem_stops.mpr (by decide))
  have hcount : countWhile (fun c => c == ' ' || c == '\t') cs =
      countWhile (fun c => c == ' ' || c == '\t') ds := congrArg List.length heq
  have hnames : ∀ name ∈ names, isFree name.toList = true ∧ isFree name.toList.dropLast = true := by decide
  rw [extent_of_ne hhead] at hk
  rw [extent_of_ne hhead, extent_of_ne (h.head?_eq ▸ hhead), ← hcount]
  generalize hb : countWhile (fun c => c == ' ' || c == '\t') cs = blanks at hk ⊢
  have htext := h.drop (k := blanks) (hb ▸ hblanks)
  dsimp only at hk ⊢
  rw [← htext.find?_isPrefixOf_eq fun name hname => (hnames name hname).2]
  split at hk
  · next name hname =>
    have hlong := htext.length_le (hnames name (List.mem_of_find?_eq_some hname)).1
      (by simpa using List.find?_some hname)
    have hle' : blanks ≤ n := hb ▸ hblanks
    exact extentOf_settle (htext.drop hlong) hk (by omega)
  · rfl

/-- What is behind the name of a directive makes no interpreter line. -/
theorem extentBehind_ne_shebang (name : String) (read : Gap) (cs : List Char) (k : Nat) :
    extentBehind name d read cs ≠ .shebang k := by
  unfold extentBehind
  split
  · dsimp only
    split <;> exact nofun
  · split <;> exact nofun
  · exact nofun

theorem extentOf_ne_shebang (name : String) (size : Nat) (cs : List Char) (k : Nat) :
    extentOf name size cs ≠ .shebang k := by
  rcases extentOf_cases name size cs cs with ⟨hcs, -⟩ | ⟨d, hcs, -⟩ | ⟨hcs, -⟩
  · rw [hcs]
    exact nofun
  · rw [hcs]
    exact extentBehind_ne_shebang name _ cs k
  · intro hshebang
    rw [hcs] at hshebang
    rcases ite_eq_iff.mp hshebang with ⟨-, hnone⟩ | ⟨-, hbehind⟩
    · exact absurd hnone nofun
    · exact extentBehind_ne_shebang name _ _ k hbehind

/-- An interpreter line that ends in front of the stop. -/
theorem extent_shebang_settle (h : Agree n cs ds) (hk : extent cs = .shebang k) (hle : k ≤ n) :
    extent ds = .shebang k := by
  by_cases hhead : cs.head? = some '!'
  · obtain ⟨rest, rfl⟩ := List.head?_eq_some_iff.mp hhead
    obtain rfl := Extent.shebang.inj hk
    cases h with
    | stop hd => exact absurd hd (by decide)
    | cons _ h =>
        simp only [extent]
        rw [countWhile_settle h (by omega)]
  · rw [extent_of_ne hhead] at hk
    dsimp only at hk
    split at hk
    · exact absurd hk (extentOf_ne_shebang _ _ _ k)
    · exact absurd hk Extent.noConfusion

end Directive

end InteropStubs
