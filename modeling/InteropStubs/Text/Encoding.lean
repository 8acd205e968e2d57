/-!
# The encoding of files

Files hold UTF-8, possibly behind a byte order mark, with any of the three usual line endings. A
text in memory has neither the mark nor carriage returns.
-/

namespace InteropStubs.Text

/-- The byte order mark in UTF-8. -/
def byteOrderMark : ByteArray := ⟨#[0xEF, 0xBB, 0xBF]⟩

/-- The bytes of a file behind its byte order mark. A file that is only a beginning of the mark
has nothing behind it. -/
def withoutMark (bytes : ByteArray) : ByteArray :=
  if (bytes.extract 0 3).data = (byteOrderMark.extract 0 bytes.size).data then
    bytes.extract 3 bytes.size
  else bytes

/-- Every line ending becomes one line feed. -/
def unifyLineEnds : List Char → List Char
  | [] => []
  | '\r' :: '\n' :: cs => '\n' :: unifyLineEnds cs
  | '\r' :: cs => '\n' :: unifyLineEnds cs
  | c :: cs => c :: unifyLineEnds cs

/-- The text of a file, unless its bytes are no UTF-8. -/
def decode? (bytes : ByteArray) : Option String :=
  (String.fromUTF8? (withoutMark bytes)).map fun s => String.ofList (unifyLineEnds s.toList)

end InteropStubs.Text
