/-!
# Braces

The braces of the source and of the generated text. A brace in a string literal would begin a hole, so the
literals of the library are put together from these names.
-/

namespace InteropStubs

/-- The brace that opens a block. -/
@[simp] abbrev openBrace : String := "\x7b"

/-- The brace that closes a block. -/
@[simp] abbrev closeBrace : String := "\x7d"

/-- A body in braces, with a blank at either side. -/
def braced (body : String) : String :=
  openBrace ++ " " ++ body ++ " " ++ closeBrace

end InteropStubs
