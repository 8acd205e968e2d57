import InteropStubs.Text.Encoding

/-!
# Encodings of a text

A text is stored as UTF-8, with or without a byte order mark in front and with one of three line endings for
each line feed (`Text.encode`). Whichever way it is stored, the same text is read (`Text.decode?_encode`), as
long as it has no carriage return and does not itself begin with the character of the mark.
-/

namespace InteropStubs.Text

/-- How lines end in a file. -/
inductive LineEnd where
  | lf
  | crlf
  | cr
deriving DecidableEq, Repr

/-- What stands in a file for a line feed. -/
def LineEnd.chars : LineEnd → List Char
  | lf => ['\n']
  | crlf => ['\r', '\n']
  | cr => ['\r']

/-- A text with its line feeds written as line endings. -/
def withLineEnds (e : LineEnd) (cs : List Char) : List Char :=
  cs.flatMap fun c => if c = '\n' then e.chars else [c]

/-- The bytes in which a text is stored. -/
def encode (mark : Bool) (e : LineEnd) (t : String) : ByteArray :=
  (if mark then byteOrderMark else .empty) ++ (String.ofList (withLineEnds e t.toList)).toUTF8

/-! ### Line endings -/

theorem unifyLineEnds_cr_of_ne {cs : List Char} (h : cs.head? ≠ some '\n') :
    unifyLineEnds ('\r' :: cs) = '\n' :: unifyLineEnds cs := by
  rw [unifyLineEnds]
  rintro ds rfl
  exact h rfl

theorem unifyLineEnds_of_ne {c : Char} (h : c ≠ '\r') (cs : List Char) :
    unifyLineEnds (c :: cs) = c :: unifyLineEnds cs := by
  rw [unifyLineEnds]
  · exact fun _ hc _ => h hc
  · exact h

/-- Where lone carriage returns stand for line feeds, no line feed is left. -/
theorem head?_withLineEnds_cr (cs : List Char) : (withLineEnds .cr cs).head? ≠ some '\n' := by
  cases cs with
  | nil => exact nofun
  | cons c cs =>
      by_cases hc : c = '\n'
      · simp [withLineEnds, hc, LineEnd.chars]
      · simp [withLineEnds, hc]

/-- **Line endings are unified**, whichever they are. -/
theorem unifyLineEnds_withLineEnds (e : LineEnd) {cs : List Char} (h : '\r' ∉ cs) :
    unifyLineEnds (withLineEnds e cs) = cs := by
  induction cs with
  | nil => rfl
  | cons c cs ih =>
      obtain ⟨hc, hcs⟩ := List.ne_and_not_mem_of_not_mem_cons h
      by_cases hline : c = '\n'
      · subst hline
        have hcons : withLineEnds e ('\n' :: cs) = e.chars ++ withLineEnds e cs := by simp [withLineEnds]
        rw [hcons]
        cases e with
        | lf => rw [LineEnd.chars, List.singleton_append, unifyLineEnds_of_ne (by decide), ih hcs]
        | crlf => rw [LineEnd.chars, List.cons_append, List.singleton_append, unifyLineEnds, ih hcs]
        | cr =>
            rw [LineEnd.chars, List.singleton_append, unifyLineEnds_cr_of_ne (head?_withLineEnds_cr cs), ih hcs]
      · have hcons : withLineEnds e (c :: cs) = c :: withLineEnds e cs := by simp [withLineEnds, hline]
        rw [hcons, unifyLineEnds_of_ne (Ne.symm hc), ih hcs]

/-- Line endings do not make a byte order mark of the beginning. -/
theorem head?_withLineEnds (e : LineEnd) {cs : List Char} (h : cs.head? ≠ some '\uFEFF') :
    (withLineEnds e cs).head? ≠ some '\uFEFF' := by
  cases cs with
  | nil => exact nofun
  | cons c cs =>
      by_cases hc : c = '\n'
      · cases e <;> simp [withLineEnds, hc, LineEnd.chars]
      · simpa [withLineEnds, hc] using h

/-! ### The byte order mark -/

theorem byteOrderMark_eq : byteOrderMark = ['\uFEFF'].utf8Encode := by decide

/-- A beginning of some bytes that is at least as long as they are. -/
theorem extract_of_size_le {bytes : ByteArray} {n : Nat} (h : bytes.size ≤ n) :
    bytes.extract 0 n = bytes := by
  rw [ByteArray.ext_iff, ByteArray.data_extract]
  exact Array.extract_eq_self_of_le h

/-- Behind the mark stands what was put there. -/
theorem withoutMark_append (bytes : ByteArray) : withoutMark (byteOrderMark ++ bytes) = bytes := by
  have hsize : byteOrderMark.size = 3 := rfl
  have hfront : (byteOrderMark ++ bytes).extract 0 3 = byteOrderMark :=
    ByteArray.extract_append_eq_left hsize.symm
  have hmark : byteOrderMark.extract 0 (byteOrderMark ++ bytes).size = byteOrderMark :=
    extract_of_size_le (by rw [ByteArray.size_append]; omega)
  rw [withoutMark, hfront, hmark, if_pos rfl]
  exact ByteArray.extract_append_eq_right hsize.symm (by rw [ByteArray.size_append, hsize])

/-- A text that does not begin with the character of the mark has no mark. -/
theorem withoutMark_utf8Encode {cs : List Char} (h : cs.head? ≠ some '\uFEFF') :
    withoutMark cs.utf8Encode = cs.utf8Encode := by
  cases cs with
  | nil => decide
  | cons c cs =>
      have hdecode := List.utf8DecodeChar?_utf8Encode_cons (l := cs) (c := c)
      generalize (c :: cs).utf8Encode = bytes at hdecode ⊢
      refine if_neg fun hmark => ?_
      have hfront : bytes.extract 0 3 = byteOrderMark.extract 0 bytes.size := ByteArray.ext hmark
      by_cases hsize : bytes.size < 3
      · -- a proper beginning of the mark is no character
        rw [extract_of_size_le (Nat.le_of_lt hsize)] at hfront
        have hnone : ∀ n < 3, (byteOrderMark.extract 0 n).utf8DecodeChar? 0 = none := by decide
        rw [hfront, hnone _ hsize] at hdecode
        exact nomatch hdecode
      · rw [extract_of_size_le (show byteOrderMark.size ≤ bytes.size from Nat.le_of_not_lt hsize)] at hfront
        have hbytes : bytes = byteOrderMark ++ bytes.extract 3 bytes.size := by
          rw [← hfront, ← ByteArray.extract_eq_extract_append_extract 3 (Nat.zero_le _)
            (Nat.le_of_not_lt hsize), ByteArray.extract_zero_size]
        rw [hbytes, byteOrderMark_eq, List.utf8DecodeChar?_utf8Encode_singleton_append] at hdecode
        exact h (by rw [List.head?_cons, ← hdecode])

theorem fromUTF8?_utf8Encode (cs : List Char) :
    String.fromUTF8? cs.utf8Encode = some (String.ofList cs) :=
  dif_pos ⟨cs, rfl⟩

/-- **Every encoding of a text is read as the text.** -/
theorem decode?_encode (mark : Bool) (e : LineEnd) {t : String} (hreturn : '\r' ∉ t.toList)
    (hmark : t.toList.head? ≠ some '\uFEFF') : decode? (encode mark e t) = some t := by
  have hbytes : withoutMark (encode mark e t) = (withLineEnds e t.toList).utf8Encode := by
    rw [encode, String.toUTF8_eq_toByteArray, String.toByteArray_ofList]
    cases mark with
    | true => exact withoutMark_append _
    | false =>
        rw [if_neg Bool.false_ne_true, ByteArray.empty_append]
        exact withoutMark_utf8Encode (head?_withLineEnds e hmark)
  rw [decode?, hbytes, fromUTF8?_utf8Encode, Option.map_some, String.toList_ofList,
    unifyLineEnds_withLineEnds e hreturn, String.ofList_toList]

end InteropStubs.Text
