import InteropStubs.Proofs.Phrase.Leaves
import Mathlib.Tactic.ByContra

/-!
# How lists of trees begin

Most alternatives of the grammar are ruled out by the first tree. A `Head` says what is known of it.
`Phrase.starts` computes from a head whether a phrase may take nothing and whether it may take
something of a list that begins so; it looks into rules to a certain depth and says yes where it does
not know.

* `Phrase.not_leaves`: a phrase that refuses a head takes nothing at all, not even no tree.
* `Phrase.eq_of_leaves`: a phrase that passes over a head takes no tree.
-/

namespace InteropStubs

namespace Words

/-- The keywords of the language. -/
def keywords : List String := [
  "abstract", "as", "base", "bool", "break", "byte", "case", "catch", "char", "checked", "class",
  "const", "continue", "decimal", "default", "delegate", "do", "double", "else", "enum", "event",
  "explicit", "extern", "false", "finally", "fixed", "float", "for", "foreach", "goto", "if",
  "implicit", "in", "int", "interface", "internal", "is", "lock", "long", "namespace", "new", "null",
  "object", "operator", "out", "override", "params", "private", "protected", "public", "readonly",
  "ref", "return", "sbyte", "sealed", "short", "sizeof", "stackalloc", "static", "string", "struct",
  "switch", "this", "throw", "true", "try", "typeof", "uint", "ulong", "unchecked", "unsafe",
  "ushort", "using", "virtual", "void", "volatile", "while"]

/-- The words that are keywords in some places and names in others. -/
def contextual : List String := [
  "add", "alias", "and", "ascending", "async", "await", "by", "descending", "dynamic", "equals",
  "file", "from", "get", "global", "group", "init", "into", "join", "let", "managed", "nameof",
  "nint", "not", "notnull", "nuint", "on", "or", "orderby", "partial", "record", "remove", "required",
  "scoped", "select", "set", "unmanaged", "value", "var", "when", "where", "with", "yield"]

/-- The words that no declaration is called by. -/
def reserved : List String :=
  "_" :: keywords ++ contextual

/-- The marks that stand in declarations and types. -/
def marks : List String :=
  ["(", ")", "[", "]", openBrace, closeBrace, "<", ">", ".", ",", ";", ":", "::", "?", "*", "=", "=>", "~"]

/-- Whether a text is neither a reserved word nor a mark. -/
def mayBeName (text : String) : Bool :=
  !(reserved ++ marks).contains text

end Words

/-- What is known of the first tree of a list. -/
inductive Head where
  | nothing
  | word (text : String)
  | mark (text : String)
  /-- A word that is not reserved. -/
  | name
  | group (bracket : Bracket)
deriving DecidableEq, Repr

namespace Head

/-- Whether a token with this head may be in a class. -/
def admits : Head → TokenClass → Bool
  | word s, .text x | mark s, .text x => s == x
  | word s, .anyOf xs | mark s, .anyOf xs => xs.contains s
  | word s, .nameBut keywords => !keywords.contains s
  | name, .text x => Words.mayBeName x
  | name, .anyOf xs => xs.any Words.mayBeName
  | name, .nameBut _ => true
  | _, _ => false

/-- Whether every token with this head is in a class. -/
def insists : Head → TokenClass → Bool
  | name, .nameBut keywords => keywords.all fun x => !Words.mayBeName x
  | name, _ => false
  | h, c => h.admits c

/-- Whether a tree has this head. -/
def of : Head → Tree → Prop
  | word s, .token t => t.kind = .word ∧ t.text = s
  | mark s, .token t => t.kind = .mark ∧ t.text = s
  | name, .token t => t.kind = .word ∧ Words.mayBeName t.text = true
  | group b, .group b' _ _ (.present _) => b' = b
  | _, _ => False

/-- Whether a list of trees begins so. -/
def Begins : Head → List Tree → Prop
  | nothing, ts => ts = []
  | h, t :: _ => h.of t
  | _, [] => False

/-- A head admits the classes of its tokens. -/
theorem admits_of_holds {h : Head} {t : Token} {c : TokenClass} (ht : h.of (.token t))
    (hc : c.holds t = true) : h.admits c = true := by
  cases h with
  | nothing => exact ht.elim
  | group b => exact ht.elim
  | word s =>
      obtain ⟨hkind, rfl⟩ := ht
      cases c <;> simp_all [admits, TokenClass.holds, Token.isText, Token.isDirective]
  | mark s =>
      obtain ⟨hkind, rfl⟩ := ht
      cases c <;> simp_all [admits, TokenClass.holds, Token.isText, Token.isDirective]
  | name =>
      obtain ⟨hkind, hname⟩ := ht
      cases c with
      | text x =>
          obtain rfl : t.text = x := by simpa [TokenClass.holds, Token.isText, hkind] using hc
          exact hname
      | anyOf xs =>
          have hmem : t.text ∈ xs := by simpa [TokenClass.holds, hkind] using hc
          exact List.any_eq_true.mpr ⟨_, hmem, hname⟩
      | nameBut keywords => rfl
      | _ => simp_all [TokenClass.holds, Token.isDirective]

/-- A token is of the classes that its head insists on. -/
theorem holds_of_insists {h : Head} {t : Token} {c : TokenClass} (ht : h.of (.token t))
    (hc : h.insists c = true) : c.holds t = true := by
  cases h with
  | nothing => exact ht.elim
  | group b => exact ht.elim
  | word s =>
      obtain ⟨hkind, rfl⟩ := ht
      cases c <;> simp_all [insists, admits, TokenClass.holds, Token.isText]
  | mark s =>
      obtain ⟨hkind, rfl⟩ := ht
      cases c <;> simp_all [insists, admits, TokenClass.holds, Token.isText]
  | name =>
      obtain ⟨hkind, hname⟩ := ht
      cases c with
      | nameBut keywords =>
          have hfree : t.text ∉ keywords := fun hmem => by
            have := List.all_eq_true.mp hc _ hmem
            simp [hname] at this
          simp [TokenClass.holds, hkind, hfree]
      | _ => exact absurd hc Bool.false_ne_true

/-- A list that begins with a token has its head. -/
theorem Begins.of_token {h : Head} {t : Token} {ts : List Tree} (hb : h.Begins (.token t :: ts)) :
    h.of (.token t) := by
  cases h <;> first | exact hb | exact absurd hb nofun

/-- Where a mark is not admitted, it does not stand. -/
theorem Begins.isText_eq_false {h : Head} {t : Tree} {ts : List Tree} {mark : String}
    (hb : h.Begins (t :: ts)) (hh : h.admits (.text mark) = false) : t.isText mark = false := by
  cases t with
  | token t =>
      rw [Bool.eq_false_iff]
      intro ht
      exact absurd (admits_of_holds (c := .text mark) hb.of_token ht) (by simp [hh])
  | group => rfl

/-- A list that begins with a bracket begins with a group. -/
theorem Begins.exists_group {b : Bracket} {ts : List Tree} (hb : (Head.group b).Begins ts) :
    ∃ opening inner closing rest, ts = .group b opening inner (.present closing) :: rest := by
  match ts, hb with
  | .group _ opening inner (.present closing) :: rest, rfl => exact ⟨opening, inner, closing, rest, rfl⟩

end Head

namespace Phrase

/-- Whether a phrase may take nothing of a list that begins so, and whether it may take something. -/
def startsWith (call : Rule → Bool × Bool) (h : Head) : Phrase → Bool × Bool
  | empty => (true, false)
  | one c => (false, h.admits c)
  | any => (false, h != .nothing)
  | within b _ | opens b _ => (false, h == .group b)
  | andThen p q =>
    match p.startsWith call h with
    | (false, more) => (false, more)
    | (true, false) => q.startsWith call h
    | (true, true) => ((q.startsWith call h).1, true)
  | orElse p q =>
    ((p.startsWith call h).1 || (q.startsWith call h).1,
      (p.startsWith call h).2 || (q.startsWith call h).2)
  | many p => (true, (p.startsWith call h).2)
  | absent (one c) => (!h.insists c, false)
  | absent _ => (true, false)
  | touching text => (false, h.admits (.text text))
  | rule r => call r

/-- `startsWith` for a rule, where rules are looked into to a depth. -/
def ruleStarts (h : Head) : (depth : Nat) → Rule → Bool × Bool
  | 0, _ => (true, true)
  | depth + 1, r => r.phrase.startsWith (ruleStarts h depth) h

/-- How deeply rules are looked into. -/
def startDepth : Nat := 3

/-- Whether a phrase may take nothing, and whether it may take something. -/
def starts (h : Head) (p : Phrase) : Bool × Bool :=
  p.startsWith (ruleStarts h startDepth) h

/-- Whether a phrase can be told not to fit where a list begins so. -/
def refuses (h : Head) (p : Phrase) : Bool :=
  starts h p == (false, false)

/-- Whether a phrase can be told to take no tree where a list begins so. -/
def passes (h : Head) (p : Phrase) : Bool :=
  !(starts h p).2

/-- Whether a phrase can be told not to do without a tree where a list begins so. -/
def needs (h : Head) (p : Phrase) : Bool :=
  !(starts h p).1

/-- What an answer of `startsWith` promises of a list and of what is left of it. -/
def Promises (start : Bool × Bool) (ts rest : List Tree) : Prop :=
  (rest = ts → start.1 = true) ∧ (rest ≠ ts → start.2 = true)

variable {fuel : Nat} {h : Head} {p q : Phrase} {ts rest : List Tree}

/-- A group has the head of its bracket alone. -/
theorem begins_group_iff {b : Bracket} {opening closing : Token} {inner : List Tree}
    (hb : h.Begins (.group b opening inner (.present closing) :: rest)) : h = .group b := by
  cases h with
  | group b' => exact congrArg Head.group (Eq.symm hb)
  | nothing => exact absurd hb (List.cons_ne_nil _ _)
  | word | mark | name => exact hb.elim

/-- What is taken keeps the promise that something may be. -/
theorem Promises.taken {start : Bool × Bool} (hne : rest ≠ ts) (h : start.2 = true) :
    Promises start ts rest :=
  ⟨fun heq => absurd heq hne, fun _ => h⟩

/-- What is not taken keeps the promise that nothing may be. -/
theorem Promises.untaken {start : Bool × Bool} (h : start.1 = true) : Promises start ts ts :=
  ⟨fun _ => h, fun hne => absurd rfl hne⟩

/-- A sequence takes something with its first part, or else with its second one. -/
theorem promises_andThen {call : Rule → Bool × Bool} {mid : List Tree}
    (hp : Promises (p.startsWith call h) ts mid)
    (hq : mid = ts → Promises (q.startsWith call h) ts rest) (hne : mid ≠ ts → rest ≠ ts) :
    Promises ((andThen p q).startsWith call h) ts rest := by
  by_cases hmid : mid = ts
  · have hnext := hq hmid
    have hempty := hp.1 hmid
    simp only [startsWith]
    revert hempty
    rcases p.startsWith call h with ⟨_ | _, _ | _⟩
    · exact fun h => absurd h Bool.false_ne_true
    · exact fun h => absurd h Bool.false_ne_true
    · exact fun _ => hnext
    · exact fun _ => ⟨hnext.1, fun _ => rfl⟩
  · refine .taken (hne hmid) ?_
    have hsome := hp.2 hmid
    simp only [startsWith]
    revert hsome
    rcases p.startsWith call h with ⟨_ | _, _ | _⟩
    · exact fun h => absurd h Bool.false_ne_true
    · exact fun _ => rfl
    · exact fun h => absurd h Bool.false_ne_true
    · exact fun _ => rfl

/-- A token that must be in a class is taken. -/
theorem insists_eq_false {c : TokenClass} (hb : h.Begins ts)
    (hnone : ∀ rest, ¬ Leaves fuel (one c) ts rest) : h.insists c = false := by
  by_contra hinsists
  rw [Bool.not_eq_false] at hinsists
  cases ts with
  | nil => cases h <;> first | exact hb | exact absurd hinsists Bool.false_ne_true
  | cons t ts =>
      cases t with
      | token t =>
          exact hnone ts (leaves_one.mpr ⟨t, rfl, Head.holds_of_insists hb.of_token hinsists⟩)
      | group b opening inner closing =>
          cases h <;> first | exact hb | exact absurd hinsists Bool.false_ne_true

/-- What is computed of a phrase is kept by all that the phrase leaves, if this is so for the rules. -/
theorem startsWith_promises {call : Rule → Bool × Bool}
    (hcall : ∀ r ts rest, h.Begins ts → Leaves fuel (rule r) ts rest → Promises (call r) ts rest)
    (p : Phrase) : ∀ ts rest, h.Begins ts → Leaves fuel p ts rest →
      Promises (p.startsWith call h) ts rest := by
  induction p with
  | empty =>
      intro ts rest hb hl
      obtain rfl := leaves_empty.mp hl
      exact .untaken rfl
  | one c =>
      intro ts rest hb hl
      obtain ⟨t, rfl, ht⟩ := leaves_one.mp hl
      exact .taken (List.cons_ne_self _ _).symm (Head.admits_of_holds hb.of_token ht)
  | any =>
      intro ts rest hb hl
      obtain ⟨n, hn, rfl⟩ := hl
      cases ts with
      | nil => simp [takes] at hn
      | cons t ts =>
          obtain rfl : n = 1 := by simpa [takes] using hn
          refine .taken (List.cons_ne_self _ _).symm ?_
          cases h <;> first | rfl | exact absurd hb (List.cons_ne_nil _ _)
  | within b p =>
      intro ts rest hb hl
      obtain ⟨opening, inner, closing, rfl, -⟩ := leaves_within.mp hl
      obtain rfl := begins_group_iff hb
      exact .taken (List.cons_ne_self _ _).symm (by simp [startsWith])
  | opens b p =>
      intro ts rest hb hl
      obtain ⟨opening, inner, closing, left, rfl, -⟩ := leaves_opens.mp hl
      obtain rfl := begins_group_iff hb
      exact .taken (List.cons_ne_self _ _).symm (by simp [startsWith])
  | andThen p q ihp ihq =>
      intro ts rest hb hl
      obtain ⟨mid, hp, hq⟩ := leaves_andThen.mp hl
      refine promises_andThen (ihp ts mid hb hp) (fun hmid => ihq ts rest hb (hmid ▸ hq)) ?_
      exact fun hmid heq => hmid (hp.suffix.eq_of_length_le (heq ▸ hq.suffix.length_le))
  | orElse p q ihp ihq =>
      intro ts rest hb hl
      simp only [Promises, startsWith, Bool.or_eq_true]
      rcases leaves_orElse.mp hl with hl | hl
      · exact (ihp ts rest hb hl).imp (fun hp heq => .inl (hp heq)) fun hp hne => .inl (hp hne)
      · exact (ihq ts rest hb hl).imp (fun hq heq => .inr (hq heq)) fun hq hne => .inr (hq hne)
  | many p ih =>
      intro ts rest hb hl
      refine ⟨fun _ => rfl, fun hne => ?_⟩
      rcases leaves_many.mp hl with heq | ⟨mid, hmid, hsome, -⟩
      · exact absurd heq hne
      · exact (ih ts mid hb hmid).2 hsome
  | absent p =>
      intro ts rest hb hl
      obtain ⟨rfl, hnone⟩ := leaves_absent.mp hl
      refine .untaken ?_
      cases p with
      | one c => simp [startsWith, insists_eq_false hb hnone]
      | _ => rfl
  | touching text =>
      intro ts rest hb hl
      obtain ⟨t, rfl, ht, -⟩ := leaves_touching.mp hl
      exact .taken (List.cons_ne_self _ _).symm
        (Head.admits_of_holds (c := .text text) hb.of_token ht)
  | rule r => exact hcall r

/-- It is so for the rules, to whatever depth they are looked into. -/
theorem ruleStarts_promises (depth : Nat) : ∀ (fuel : Nat) (r : Rule) (ts rest : List Tree),
    h.Begins ts → Leaves fuel (rule r) ts rest → Promises (ruleStarts h depth r) ts rest := by
  induction depth with
  | zero => exact fun _ _ _ _ _ _ => ⟨fun _ => rfl, fun _ => rfl⟩
  | succ depth ih =>
      intro fuel r ts rest hb hl
      cases fuel with
      | zero =>
          obtain ⟨n, hn, -⟩ := hl
          exact absurd hn List.not_mem_nil
      | succ fuel => exact startsWith_promises (ih fuel) r.phrase ts rest hb (leaves_rule.mp hl)

/-- **What is known of the beginning of a phrase** is kept by all that the phrase leaves. -/
theorem starts_promises (hb : h.Begins ts) (hl : Leaves fuel p ts rest) :
    Promises (starts h p) ts rest :=
  startsWith_promises (ruleStarts_promises startDepth fuel) p ts rest hb hl

/-- **A phrase that refuses a head** leaves nothing of a list that begins so. -/
theorem not_leaves (hb : h.Begins ts) (hp : p.refuses h = true) : ¬ Leaves fuel p ts rest := by
  intro hl
  have hpromise := starts_promises hb hl
  rw [eq_of_beq hp] at hpromise
  by_cases heq : rest = ts
  · exact absurd (hpromise.1 heq) Bool.false_ne_true
  · exact absurd (hpromise.2 heq) Bool.false_ne_true

/-- **A phrase that passes over a head** leaves all of a list that begins so. -/
theorem eq_of_leaves (hb : h.Begins ts) (hp : p.passes h = true) (hl : Leaves fuel p ts rest) :
    rest = ts := by
  by_contra hne
  have hsome := (starts_promises hb hl).2 hne
  rw [passes, hsome] at hp
  exact absurd hp Bool.false_ne_true

/-- A phrase that needs a tree takes one. -/
theorem ne_of_leaves (hb : h.Begins ts) (hp : p.needs h = true) (hl : Leaves fuel p ts rest) :
    rest ≠ ts := by
  intro heq
  have hnone := (starts_promises hb hl).1 heq
  rw [needs, hnone] at hp
  exact absurd hp Bool.false_ne_true

/-- An optional phrase that cannot begin takes nothing. -/
theorem leaves_optional_of_refuses (hb : h.Begins ts) (hp : p.refuses h = true) :
    Leaves fuel (Phrase.optional p) ts rest ↔ rest = ts := by
  rw [leaves_optional]
  exact or_iff_right (not_leaves hb hp)

/-- A repetition that cannot begin takes nothing. -/
theorem leaves_many_of_refuses (hb : h.Begins ts) (hp : p.refuses h = true) :
    Leaves fuel (many p) ts rest ↔ rest = ts := by
  rw [leaves_many]
  exact or_iff_left fun ⟨_, hmid, _⟩ => not_leaves hb hp hmid

/-- A phrase that cannot begin is absent. -/
theorem leaves_absent_of_refuses (hb : h.Begins ts) (hp : p.refuses h = true) :
    Leaves fuel (absent p) ts rest ↔ rest = ts := by
  rw [leaves_absent]
  exact and_iff_left fun _ => not_leaves hb hp

/-- A choice whose first alternative is ruled out. -/
theorem leaves_orElse_right (hb : h.Begins ts) (hp : p.refuses h = true) :
    Leaves fuel (p <|> q) ts rest ↔ Leaves fuel q ts rest := by
  rw [leaves_orElse]
  exact or_iff_right (not_leaves hb hp)

/-- A choice whose second alternative is ruled out. -/
theorem leaves_orElse_left (hb : h.Begins ts) (hq : q.refuses h = true) :
    Leaves fuel (p <|> q) ts rest ↔ Leaves fuel p ts rest := by
  rw [leaves_orElse]
  exact or_iff_left (not_leaves hb hq)

/-- What follows if something that is ruled out is absent. -/
theorem leaves_absent_andThen (hb : h.Begins ts) (hp : p.refuses h = true) :
    Leaves fuel (absent p ++ q) ts rest ↔ Leaves fuel q ts rest := by
  rw [leaves_andThen]
  constructor
  · rintro ⟨mid, habsent, hq⟩
    exact (leaves_absent.mp habsent).1 ▸ hq
  · exact fun hq => ⟨ts, (leaves_absent_of_refuses hb hp).mpr rfl, hq⟩

end Phrase

end InteropStubs
