import InteropStubs.Batch

/-!
# The program

The batch run on the real system.
-/

namespace InteropStubs

/-- What a system says, where it is known to begin as it should. -/
def Wording.ofText (text : String) : Wording :=
  if h : text.toList.head?.any Char.isLower = false then ⟨text, h⟩ else ⟨"Input/output error", by decide⟩

/-- What the system says about a failed access, as a file error. -/
def FileError.ofSystem : IO.Error → FileError
  | .noFileOrDirectory .. => notFound
  | .permissionDenied .. => permissionDenied
  | .inappropriateType _ _ details =>
    if details.toLower == "is a directory" then isDirectory else notDirectory
  | .invalidArgument _ _ details =>
    if details.toLower.endsWith "name too long" then nameTooLong
    else other (.ofText details.capitalize)
  | error => other (.ofText (toString error).capitalize)

/-- The real system. -/
def Host.real : Host IO where
  read path := do
    try return .ok (← IO.FS.readBinFile path)
    catch error => return .error (FileError.ofSystem error)
  write path content := do
    try
      IO.FS.writeBinFile path content
      return .ok ()
    catch error => return .error (FileError.ofSystem error)
  print text := IO.print text
  complain text := IO.eprint text

end InteropStubs

open InteropStubs

/-- Process the files that the arguments name. -/
def main (arguments : List String) : IO UInt32 := do
  return (← Batch.run Host.real arguments).toUInt32
