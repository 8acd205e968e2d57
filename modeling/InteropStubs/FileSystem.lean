/-!
# File systems

A `FileSystem` is a tree of named entries with a root and a working directory. Paths are resolved
part by part, those that begin with a slash from the root on and all others from the working
directory on: every part but the last must lead into a directory that may be passed, and `..` leads
from the root to the root. Whatever is done with an entry may be refused (`Access`).

There are no links, so an entry has one sequence of names, and nothing goes wrong with a file once it
is open.
-/

namespace InteropStubs

/-! ### Errors -/

/-- The words of a system that refuses something. They do not begin with a small letter. -/
structure Wording where
  text : String
  isLower_head : text.toList.head?.any Char.isLower = false := by decide
deriving DecidableEq, Repr

/-- Why a file cannot be opened. -/
inductive FileError where
  | notFound
  | isDirectory
  | notDirectory
  | nameTooLong
  | permissionDenied
  /-- What else the system may say. -/
  | other (wording : Wording)
deriving DecidableEq, Repr

/-- The wording of a file error. -/
def FileError.text : FileError → String
  | notFound => "No such file or directory"
  | isDirectory => "Is a directory"
  | notDirectory => "Not a directory"
  | nameTooLong => "File name too long"
  | permissionDenied => "Permission denied"
  | other wording => wording.text

/-- The words about a file that cannot be opened are those of a system. -/
theorem FileError.isLower_head_text (e : FileError) : e.text.toList.head?.any Char.isLower = false := by
  cases e with
  | other wording => exact wording.isLower_head
  | _ => decide

/-! ### Entries -/

/-- What may be done with an entry: why something is refused, if it is. -/
structure Access where
  /-- To open a file or a directory and to read it. -/
  reading : Option FileError := none
  /-- To open a file and to write it, or to make a file in a directory. -/
  writing : Option FileError := none
  /-- To go on through a directory. -/
  passing : Option FileError := none
deriving DecidableEq, Repr

/-- What a path can lead to. -/
inductive Entry where
  | file (content : ByteArray) (access : Access)
  | directory (access : Access)

-- written out, so that bytes are compared in the same way whatever else is imported
instance : DecidableEq Entry
  | .file a x, .file b y =>
    match ByteArray.instDecidableEq a b, decEq x y with
    | isTrue h, isTrue h' => isTrue (h ▸ h' ▸ rfl)
    | isFalse h, _ => isFalse fun e => h (Entry.file.inj e).1
    | _, isFalse h => isFalse fun e => h (Entry.file.inj e).2
  | .directory x, .directory y =>
    match decEq x y with
    | isTrue h => isTrue (congrArg Entry.directory h)
    | isFalse h => isFalse fun e => h (Entry.directory.inj e)
  | .file .., .directory _ => isFalse nofun
  | .directory _, .file .. => isFalse nofun

/-- A tree of entries, each under the names that lead to it from the root. The newest entry for some
names counts. -/
structure FileSystem where
  entries : List (List String × Entry) := []
  /-- The names of the directory that relative paths start in. -/
  workingDirectory : List String := []
  /-- What may be done in the root, which is always a directory. -/
  root : Access := {}

namespace FileSystem

/-- The entry under the given names. -/
def lookup? (fs : FileSystem) (names : List String) : Option Entry :=
  if names.isEmpty then some (.directory fs.root) else fs.entries.lookup names

/-- The file system with another entry under the given names. -/
def put (fs : FileSystem) (names : List String) (e : Entry) : FileSystem :=
  { fs with entries := (names, e) :: fs.entries.filter fun other => other.1 != names }

@[simp] theorem lookup?_put_same (fs : FileSystem) (names : List String) (e : Entry)
    (h : names ≠ []) : (fs.put names e).lookup? names = some e := by
  simp [lookup?, put, h]

/-! ### Paths -/

/-- The parts of a path between its slashes. -/
def parts : List Char → List (List Char)
  | [] => [[]]
  | c :: cs =>
    if c = '/' then [] :: parts cs
    else match parts cs with
    | [] => [[c]]
    | p :: ps => (c :: p) :: ps

/-- The most bytes that a name may have. -/
def nameLimit : Nat := 255

/-- The number of bytes that a path may not reach. -/
def pathLimit : Nat := 4096

/-- One part further from the entry under some names, which must be a directory. -/
def advance (fs : FileSystem) (names : List String) (part : String) :
    Except FileError (List String) :=
  match fs.lookup? names with
  | none => .error .notFound
  | some (.file ..) => .error .notDirectory
  | some (.directory access) =>
    if part = "" then .ok names
    else match access.passing with
    | some error => .error error
    | none =>
      if part = "." then .ok names
      else if part = ".." then .ok names.dropLast
      else if nameLimit < part.utf8ByteSize then .error .nameTooLong
      else .ok (names ++ [part])

/-- The names that a path starts from. -/
def start (fs : FileSystem) (path : List Char) : List String :=
  if path.head? = some '/' then [] else fs.workingDirectory

/-- The names that a path leads to; there may be nothing yet. -/
def resolve (fs : FileSystem) (path : String) : Except FileError (List String) :=
  if path.isEmpty then .error .notFound
  else if pathLimit ≤ path.utf8ByteSize then .error .nameTooLong
  else
    (parts path.toList).foldlM (fun names part => fs.advance names (String.ofList part))
      (fs.start path.toList)

/-! ### Files -/

/-- The content of the file at a path. -/
def readFile (fs : FileSystem) (path : String) : Except FileError ByteArray := do
  let names ← fs.resolve path
  match fs.lookup? names with
  | none => throw .notFound
  | some (.directory access) => throw (access.reading.getD .isDirectory)
  | some (.file content access) =>
    match access.reading with
    | some error => throw error
    | none => return content

/-- Why no file can be made in the directory under the given names, if none can. -/
def refusalIn? (fs : FileSystem) (names : List String) : Option FileError :=
  match fs.lookup? names with
  | some (.directory access) => access.writing
  | _ => some .notFound

/-- Why no file can be written under the given names, if none can. There need not be a file yet. -/
def refusal? (fs : FileSystem) (names : List String) : Option FileError :=
  match fs.lookup? names with
  | some (.directory _) => some .isDirectory
  | some (.file _ access) => access.writing
  | none => fs.refusalIn? names.dropLast

/-- The names of the file that is opened for writing at a path, or why none can be opened. -/
def target (fs : FileSystem) (path : String) : Except FileError (List String) := do
  let names ← fs.resolve path
  match fs.refusal? names with
  | some error => throw error
  | none => return names

/-- The access of the file under some names, or that of a new file. -/
def accessOf (fs : FileSystem) (names : List String) : Access :=
  match fs.lookup? names with
  | some (.file _ access) => access
  | _ => {}

/-- The file system with the given content in the file under some names. A file that is there keeps
its access, and with a new one everything may be done. -/
def store (fs : FileSystem) (names : List String) (content : ByteArray) : FileSystem :=
  fs.put names (.file content (fs.accessOf names))

/-- The file system with the given content in the file at a path. -/
def writeFile (fs : FileSystem) (path : String) (content : ByteArray) :
    Except FileError FileSystem :=
  (fs.target path).map fun names => fs.store names content

/-! ### Listings -/

/-- The names in a plain path. -/
def namesOf (path : String) : List String :=
  ((parts path.toList).map String.ofList).filter fun part => part != "" && part != "."

/-- The file system with all directories that lead to the given names. -/
def makeDirectories (fs : FileSystem) (names : List String) : FileSystem :=
  (List.range names.length).foldl (fun fs size =>
    let names := names.take (size + 1)
    if (fs.lookup? names).isSome then fs else fs.put names (.directory {})) fs

/-- The file system with the given directories and files below the working directory, and the
directories that lead to them. -/
def ofEntries (directories : List String) (files : List (String × ByteArray)) : FileSystem :=
  let here := ["home"]
  let fs := ({ workingDirectory := here } : FileSystem).makeDirectories here
  let fs := directories.foldl (fun fs path => fs.makeDirectories (here ++ namesOf path)) fs
  files.foldl (fun fs (path, content) =>
    let names := here ++ namesOf path
    (fs.makeDirectories names.dropLast).put names (.file content {})) fs

/-- A path to the given names: a relative one below the working directory, and else one from the root
on. -/
def pathTo (fs : FileSystem) (names : List String) : String :=
  if fs.workingDirectory.isPrefixOf names then
    "/".intercalate (names.drop fs.workingDirectory.length)
  else "/" ++ "/".intercalate names

/-- The files that are not as they were before, with the paths to them. -/
def changesSince (fs before : FileSystem) : List (String × ByteArray) :=
  fs.entries.filterMap fun (names, e) =>
    match e with
    | .file content _ =>
      if before.lookup? names = some e then none else some (fs.pathTo names, content)
    | .directory _ => none

end FileSystem

end InteropStubs
