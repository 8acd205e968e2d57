import InteropStubs.Proofs.Text.Encoding

/-!
# Well-formed bytes

Which bytes are UTF-8, told from the bytes alone: `WellFormed` lists the forms that the bytes of a character may
have. No form is longer than it has to be, none is that of a surrogate, none goes beyond the last character, and each
has all its bytes.

* `wellFormed_iff`: the well-formed bytes are the encodings of texts.
* `decode?_eq_none_iff`, `decode?_eq_of_bytesIn`: a file is read if the bytes behind its mark are well formed, and then
  as the one text that they encode, with its line ends unified; the beginnings of a mark are read as no text at all.
-/

namespace InteropStubs.Text

/-! ### The forms of characters -/

/-- A byte that goes on with a character. -/
def IsTail (b : UInt8) : Prop :=
  0x80 ≤ b ∧ b ≤ 0xBF

/-- The bytes of one character. -/
inductive IsCharacter : List UInt8 → Prop where
  | one {a : UInt8} (ha : a ≤ 0x7F) : IsCharacter [a]
  | two {a b : UInt8} (ha : 0xC2 ≤ a ∧ a ≤ 0xDF) (hb : IsTail b) : IsCharacter [a, b]
  /-- The shortest form, and no surrogate. -/
  | three {a b c : UInt8} (ha : 0xE0 ≤ a ∧ a ≤ 0xEF) (hb : IsTail b) (hc : IsTail c)
      (hshort : a = 0xE0 → 0xA0 ≤ b) (hsurrogate : a = 0xED → b ≤ 0x9F) : IsCharacter [a, b, c]
  /-- The shortest form, and not beyond the last character. -/
  | four {a b c d : UInt8} (ha : 0xF0 ≤ a ∧ a ≤ 0xF4) (hb : IsTail b) (hc : IsTail c) (hd : IsTail d)
      (hshort : a = 0xF0 → 0x90 ≤ b) (hlast : a = 0xF4 → b ≤ 0x8F) : IsCharacter [a, b, c, d]

/-- Characters one after the other. -/
inductive WellFormed : List UInt8 → Prop where
  | nil : WellFormed []
  | cons {character rest : List UInt8} (hcharacter : IsCharacter character) (hrest : WellFormed rest) :
      WellFormed (character ++ rest)

/-- The bytes of a character, by its number. -/
def bytesOf (n : Nat) : List UInt8 :=
  if n ≤ 0x7F then [UInt8.ofNat n]
  else if n ≤ 0x7FF then [UInt8.ofNat (n / 64 % 32 + 0xC0), UInt8.ofNat (n % 64 + 0x80)]
  else if n ≤ 0xFFFF then
    [UInt8.ofNat (n / 4096 % 16 + 0xE0), UInt8.ofNat (n / 64 % 64 + 0x80), UInt8.ofNat (n % 64 + 0x80)]
  else
    [UInt8.ofNat (n / 262144 % 8 + 0xF0), UInt8.ofNat (n / 4096 % 64 + 0x80), UInt8.ofNat (n / 64 % 64 + 0x80),
      UInt8.ofNat (n % 64 + 0x80)]

theorem isCharacter_bytesOf {n : Nat} (h : n.isValidChar) : IsCharacter (bytesOf n) := by
  have hvalid : n < 0xD800 ∨ 0xDFFF < n ∧ n < 0x110000 := h
  unfold bytesOf
  split
  · refine .one ?_
    simp only [UInt8.le_iff_toNat_le, UInt8.toNat_ofNat', UInt8.reduceToNat]
    omega
  split
  · refine .two ?_ ?_ <;>
      simp only [IsTail, UInt8.le_iff_toNat_le, UInt8.toNat_ofNat', UInt8.reduceToNat] <;> omega
  split
  · refine .three ?_ ?_ ?_ ?_ ?_ <;>
      simp only [IsTail, UInt8.le_iff_toNat_le, ← UInt8.toNat_inj, UInt8.toNat_ofNat', UInt8.reduceToNat] <;>
      omega
  · refine .four ?_ ?_ ?_ ?_ ?_ ?_ <;>
      simp only [IsTail, UInt8.le_iff_toNat_le, ← UInt8.toNat_inj, UInt8.toNat_ofNat', UInt8.reduceToNat] <;>
      omega

/-- Every form is that of one character: its number is put together from the bytes. -/
theorem exists_bytesOf {bytes : List UInt8} (h : IsCharacter bytes) :
    ∃ n : Nat, n.isValidChar ∧ bytes = bytesOf n := by
  cases h with
  | @one a ha =>
      simp only [UInt8.le_iff_toNat_le, UInt8.reduceToNat] at ha
      refine ⟨a.toNat, .inl (by omega), ?_⟩
      simp [bytesOf, ha]
  | @two a b ha hb =>
      simp only [IsTail, UInt8.le_iff_toNat_le, UInt8.reduceToNat] at ha hb
      refine ⟨(a.toNat - 0xC0) * 64 + (b.toNat - 0x80), .inl (by omega), ?_⟩
      rw [bytesOf, if_neg (by omega), if_pos (by omega)]
      simp only [List.cons.injEq, ← UInt8.toNat_inj, UInt8.toNat_ofNat', and_true]
      omega
  | @three a b c ha hb hc hshort hsurrogate =>
      simp only [IsTail, UInt8.le_iff_toNat_le, ← UInt8.toNat_inj, UInt8.reduceToNat] at ha hb hc hshort hsurrogate
      refine ⟨(a.toNat - 0xE0) * 4096 + (b.toNat - 0x80) * 64 + (c.toNat - 0x80), ?_, ?_⟩
      · change _ < 0xD800 ∨ 0xDFFF < _ ∧ _ < 0x110000
        omega
      · rw [bytesOf, if_neg (by omega), if_neg (by omega), if_pos (by omega)]
        simp only [List.cons.injEq, ← UInt8.toNat_inj, UInt8.toNat_ofNat', and_true]
        omega
  | @four a b c d ha hb hc hd hshort hlast =>
      simp only [IsTail, UInt8.le_iff_toNat_le, ← UInt8.toNat_inj, UInt8.reduceToNat] at ha hb hc hd hshort hlast
      refine ⟨(a.toNat - 0xF0) * 262144 + (b.toNat - 0x80) * 4096 + (c.toNat - 0x80) * 64 + (d.toNat - 0x80),
        .inr (by omega), ?_⟩
      rw [bytesOf, if_neg (by omega), if_neg (by omega), if_neg (by omega)]
      simp only [List.cons.injEq, ← UInt8.toNat_inj, UInt8.toNat_ofNat', and_true]
      omega

theorem isCharacter_iff {bytes : List UInt8} : IsCharacter bytes ↔ ∃ c, bytes = String.utf8EncodeChar c := by
  constructor
  · intro h
    obtain ⟨n, hn, rfl⟩ := exists_bytesOf h
    exact ⟨Char.ofNatAux n hn, rfl⟩
  · rintro ⟨c, rfl⟩
    exact isCharacter_bytesOf c.valid

/-! ### Encodings of texts -/

/-- **The well-formed bytes are the encodings of texts.** -/
theorem wellFormed_iff {bytes : List UInt8} :
    WellFormed bytes ↔ ∃ cs : List Char, bytes = cs.flatMap String.utf8EncodeChar := by
  constructor
  · intro h
    induction h with
    | nil => exact ⟨[], rfl⟩
    | cons hcharacter hrest ih =>
        obtain ⟨c, rfl⟩ := isCharacter_iff.mp hcharacter
        obtain ⟨cs, rfl⟩ := ih
        exact ⟨c :: cs, rfl⟩
  · rintro ⟨cs, rfl⟩
    induction cs with
    | nil => exact .nil
    | cons c cs ih => exact .cons (isCharacter_iff.mpr ⟨c, rfl⟩) ih

/-- The bytes of a text. -/
def bytesIn (t : String) : List UInt8 :=
  t.toUTF8.data.toList

theorem bytesIn_eq (t : String) : bytesIn t = t.toList.flatMap String.utf8EncodeChar := by
  rw [bytesIn, String.toUTF8_eq_toByteArray, ← String.utf8Encode_toList, List.utf8Encode, List.data_toByteArray]

theorem eq_of_bytesIn {s t : String} (h : bytesIn s = bytesIn t) : s = t :=
  String.toByteArray_inj.mp (ByteArray.ext (Array.toList_inj.mp h))

theorem wellFormed_iff_exists {bytes : List UInt8} : WellFormed bytes ↔ ∃ t, bytesIn t = bytes := by
  rw [wellFormed_iff]
  constructor
  · rintro ⟨cs, rfl⟩
    exact ⟨String.ofList cs, by rw [bytesIn_eq, String.toList_ofList]⟩
  · rintro ⟨t, rfl⟩
    exact ⟨t.toList, bytesIn_eq t⟩

/-! ### Files -/

/-- Bytes behind a byte order mark, if they begin with one. -/
def behindMark : List UInt8 → List UInt8
  | 0xEF :: 0xBB :: 0xBF :: rest => rest
  | bytes => bytes

/-- A mark that is cut off. -/
def IsCutMark (bytes : List UInt8) : Prop :=
  bytes = [0xEF] ∨ bytes = [0xEF, 0xBB]

instance : DecidablePred IsCutMark :=
  fun _ => inferInstanceAs (Decidable (_ ∨ _))

theorem toList_extract (bytes : ByteArray) (i j : Nat) :
    (bytes.extract i j).data.toList = (bytes.data.toList.drop i).take (j - i) := by
  rw [ByteArray.data_extract, Array.toList_extract, List.extract_eq_take_drop]

theorem behindMark_of_ne {bytes : List UInt8} (h : bytes.take 3 ≠ [0xEF, 0xBB, 0xBF]) :
    behindMark bytes = bytes := by
  unfold behindMark
  split
  · exact absurd rfl h
  · rfl

/-- The mark is left out as a whole, and a mark that is cut off is left out as well. -/
theorem withoutMark_toList (bytes : ByteArray) :
    (withoutMark bytes).data.toList =
      if IsCutMark bytes.data.toList then [] else behindMark bytes.data.toList := by
  have hmark : byteOrderMark.data.toList = [0xEF, 0xBB, 0xBF] := rfl
  have hfront : (bytes.extract 0 3).data = (byteOrderMark.extract 0 bytes.size).data ↔
      bytes.data.toList.take 3 = [0xEF, 0xBB, 0xBF].take bytes.data.toList.length := by
    rw [← Array.toList_inj, toList_extract, toList_extract, hmark]
    rfl
  have hrest : (bytes.extract 3 bytes.size).data.toList = bytes.data.toList.drop 3 := by
    rw [toList_extract]
    exact List.take_of_length_le (Nat.le_of_eq (by rw [List.length_drop, Array.length_toList]; rfl))
  rw [withoutMark, apply_ite ByteArray.data, apply_ite Array.toList, hrest]
  simp only [hfront]
  generalize bytes.data.toList = bs
  rcases bs with _ | ⟨a, _ | ⟨b, _ | ⟨c, rest⟩⟩⟩
  · rfl
  · simp [IsCutMark, behindMark_of_ne]
  · simp [IsCutMark, behindMark_of_ne]
  · have hcut : ¬ IsCutMark (a :: b :: c :: rest) := by simp [IsCutMark]
    rw [if_neg hcut]
    by_cases h : (a :: b :: c :: rest).take 3 = [0xEF, 0xBB, 0xBF]
    · obtain ⟨rfl, rfl, rfl⟩ : a = 0xEF ∧ b = 0xBB ∧ c = 0xBF := by simpa using h
      simp [behindMark]
    · rw [behindMark_of_ne h, if_neg (by simpa using h)]

/-- A text with its line ends unified: a pair of carriage return and line feed becomes one line feed, every other
carriage return becomes one, and everything else stays. -/
inductive Unified : List Char → List Char → Prop where
  | nil : Unified [] []
  | pair {cs ds : List Char} (h : Unified cs ds) : Unified ('\r' :: '\n' :: cs) ('\n' :: ds)
  | lone {cs ds : List Char} (hcs : cs.head? ≠ some '\n') (h : Unified cs ds) : Unified ('\r' :: cs) ('\n' :: ds)
  | other {c : Char} {cs ds : List Char} (hc : c ≠ '\r') (h : Unified cs ds) : Unified (c :: cs) (c :: ds)

theorem unified_unifyLineEnds (cs : List Char) : Unified cs (unifyLineEnds cs) := by
  fun_induction unifyLineEnds cs with
  | case1 => exact .nil
  | case2 cs ih => exact .pair ih
  | case3 cs hcs ih =>
      refine .lone (fun hhead => ?_) ih
      obtain ⟨ds, rfl⟩ := List.head?_eq_some_iff.mp hhead
      exact hcs ds rfl
  | case4 c cs hpair hc ih => exact .other hc ih

theorem Unified.notMem {cs ds : List Char} (h : Unified cs ds) : '\r' ∉ ds := by
  induction h with
  | nil => exact List.not_mem_nil
  | pair h ih | lone hcs h ih => exact List.not_mem_cons_of_ne_of_not_mem (by decide) ih
  | other hc h ih => exact List.not_mem_cons_of_ne_of_not_mem (Ne.symm hc) ih

/-- Whatever does not begin with a line end begins as before. -/
theorem Unified.head?_eq {c : Char} {cs ds : List Char} (h : Unified cs ds) (hc : c ≠ '\r')
    (hhead : cs.head? = some c) : ds.head? = some c := by
  cases h with
  | nil => exact hhead
  | pair | lone => exact absurd (Option.some.inj hhead).symm hc
  | other => exact hhead

theorem fromUTF8?_eq_some_iff {bytes : ByteArray} {t : String} :
    String.fromUTF8? bytes = some t ↔ bytesIn t = bytes.data.toList := by
  have hbytes : bytesIn t = bytes.data.toList ↔ t.toByteArray = bytes := by
    rw [bytesIn, String.toUTF8_eq_toByteArray, Array.toList_inj, ByteArray.ext_iff]
  rw [hbytes, String.fromUTF8?]
  constructor
  · intro h
    split at h
    · obtain rfl := Option.some.inj h
      rfl
    · exact nomatch h
  · rintro rfl
    rw [dif_pos t.isValidUTF8]
    rfl

theorem fromUTF8?_eq_none_iff {bytes : ByteArray} :
    String.fromUTF8? bytes = none ↔ ¬ WellFormed bytes.data.toList := by
  rw [wellFormed_iff_exists, Option.eq_none_iff_forall_ne_some, not_exists]
  exact forall_congr' fun t => not_congr fromUTF8?_eq_some_iff

/-- Neither beginning of the mark is a character. -/
theorem not_wellFormed_of_isCutMark {bytes : List UInt8} (h : IsCutMark bytes) :
    ¬ WellFormed (behindMark bytes) := by
  rcases h with rfl | rfl
  · have hnone : String.fromUTF8? ⟨#[0xEF]⟩ = none := by decide
    exact fromUTF8?_eq_none_iff.mp hnone
  · have hnone : String.fromUTF8? ⟨#[0xEF, 0xBB]⟩ = none := by decide
    exact fromUTF8?_eq_none_iff.mp hnone

/-- **What is no text**: bytes that are not well formed behind their mark, unless they are a beginning of one. -/
theorem decode?_eq_none_iff {bytes : ByteArray} :
    decode? bytes = none ↔ ¬ WellFormed (behindMark bytes.data.toList) ∧ ¬ IsCutMark bytes.data.toList := by
  rw [decode?, Option.map_eq_none_iff, fromUTF8?_eq_none_iff, withoutMark_toList]
  by_cases h : IsCutMark bytes.data.toList
  · simp [h, WellFormed.nil]
  · simp [h]

/-- **What a text is read from.** -/
theorem decode?_eq_of_bytesIn {bytes : ByteArray} {t : String} (hcut : ¬ IsCutMark bytes.data.toList)
    (h : bytesIn t = behindMark bytes.data.toList) :
    decode? bytes = some (String.ofList (unifyLineEnds t.toList)) := by
  have htext : String.fromUTF8? (withoutMark bytes) = some t := by
    rw [fromUTF8?_eq_some_iff, withoutMark_toList, if_neg hcut, h]
  rw [decode?, htext, Option.map_some]

theorem decode?_of_isCutMark {bytes : ByteArray} (h : IsCutMark bytes.data.toList) : decode? bytes = some "" := by
  have htext : String.fromUTF8? (withoutMark bytes) = some "" := by
    rw [fromUTF8?_eq_some_iff, withoutMark_toList, if_pos h]
    rfl
  rw [decode?, htext]
  rfl

/-- A second mark is the beginning of the text. -/
theorem head?_of_bytesIn {t : String} (h : [0xEF, 0xBB, 0xBF] <+: bytesIn t) : t.toList.head? = some '\uFEFF' := by
  obtain ⟨rest, hrest⟩ := h
  have hbytes : t.toList.utf8Encode = ['\uFEFF'].utf8Encode ++ rest.toByteArray := by
    rw [← byteOrderMark_eq, String.utf8Encode_toList]
    refine ByteArray.ext (Array.toList_inj.mp ?_)
    rw [ByteArray.data_append, List.data_toByteArray, Array.toList_append]
    exact hrest.symm
  cases hchars : t.toList with
  | nil =>
      have : bytesIn t = [] := by rw [bytesIn_eq, hchars]; rfl
      exact nomatch hrest.trans this
  | cons c cs =>
      have hdecode := List.utf8DecodeChar?_utf8Encode_cons (l := cs) (c := c)
      rw [← hchars, hbytes, List.utf8DecodeChar?_utf8Encode_singleton_append] at hdecode
      exact hdecode.symm

end InteropStubs.Text
