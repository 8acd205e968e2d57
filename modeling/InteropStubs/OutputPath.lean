/-!
# Output paths

The generated file of `dir/Name.ext` is `dir/Name.g.ext`. The extension starts at the last point
of the base name, unless nothing but points stands before it; then there is no extension and the
mark goes to the end.
-/

namespace InteropStubs.OutputPath

/-- A path cut behind its last slash: the directory part and the base name. -/
def splitBase (path : List Char) : List Char × List Char :=
  let reversed := path.reverse
  ((reversed.dropWhile (· != '/')).reverse, (reversed.takeWhile (· != '/')).reverse)

/-- A base name cut before its last point; everything is stem if there is no point. -/
def splitLastPoint (base : List Char) : List Char × List Char :=
  if '.' ∈ base then
    let reversed := base.reverse
    ((reversed.dropWhile (· != '.')).tail.reverse,
      '.' :: (reversed.takeWhile (· != '.')).reverse)
  else (base, [])

/-- A base name cut into stem and extension. -/
def splitExtension (base : List Char) : List Char × List Char :=
  let (stem, extension) := splitLastPoint base
  if stem.all (· == '.') then (base, []) else (stem, extension)

/-- The mark of generated files. -/
def mark : List Char := ['.', 'g']

/-- The characters of the output path. -/
def ofChars (path : List Char) : List Char :=
  let (directory, base) := splitBase path
  let (stem, extension) := splitExtension base
  directory ++ stem ++ mark ++ extension

end InteropStubs.OutputPath

namespace InteropStubs

/-- The path of the file generated from the file at `path`. -/
def outputPath (path : String) : String :=
  String.ofList (OutputPath.ofChars path.toList)

end InteropStubs
