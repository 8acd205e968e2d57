import InteropStubs.FileSystem
import InteropStubs.CommandLine
import InteropStubs.Generate
import InteropStubs.OutputPath
import InteropStubs.Text.Encoding

/-!
# Batches

Files are processed from left to right, each on the files that the ones before it left, and the
first failure ends the batch. A file is announced before it is opened, and its output is opened only
after its generation has succeeded, so a failing file changes nothing. The same program runs on any
`Host`, be it a `World` or the real system.
-/

namespace InteropStubs

/-- What the program asks of the system that it runs on. -/
structure Host (m : Type → Type) where
  read : String → m (Except FileError ByteArray)
  write : String → ByteArray → m (Except FileError Unit)
  /-- Print to the standard output. -/
  print : String → m Unit
  /-- Print to the standard error. -/
  complain : String → m Unit

/-- Why a file of a batch fails. -/
inductive Failure where
  | cannotOpen (error : FileError)
  /-- The input is not UTF-8. -/
  | notText
  | stopped (stop : Stop)

/-- The message about a failing file. -/
def Failure.message (path : String) : Failure → String
  | cannotOpen error => "ERROR: " ++ path ++ ": " ++ error.text ++ "\n"
  | notText => "ERROR: " ++ path ++ ": not a UTF-8 text file\n"
  | stopped stop => "ERROR: " ++ path ++ stop.text ++ "\n"

/-- What a run of the program leaves besides files: how it ended, and what it printed. -/
structure Report where
  exitCode : Nat
  stdout : String
  stderr : String
deriving DecidableEq, Repr

namespace Batch

/-- What goes into the output for an input of these bytes. -/
def convert (config : Config) (bytes : ByteArray) : Except Failure ByteArray :=
  match Text.decode? bytes with
  | none => .error .notText
  | some source =>
    match generate config source with
    | .ok text => .ok text.toUTF8
    | .error stop => .error (.stopped stop)

/-- Process one file. -/
def processFile {m : Type → Type} [Monad m] (host : Host m) (config : Config) (path : String) :
    m (Except Failure Unit) := do
  match ← host.read path with
  | .error error => return .error (.cannotOpen error)
  | .ok bytes =>
    match convert config bytes with
    | .error failure => return .error failure
    | .ok result =>
      match ← host.write (outputPath path) result with
      | .error error => return .error (.cannotOpen error)
      | .ok () => return .ok ()

/-- The line that announces a file. -/
def progressLine (path : String) : String :=
  path ++ " => " ++ outputPath path ++ "\n"

/-- Process files in order, until one fails: the exit code. -/
def processFiles {m : Type → Type} [Monad m] (host : Host m) (config : Config) :
    List String → m Nat
  | [] => return 0
  | path :: paths => do
    host.print (progressLine path)
    match ← processFile host config path with
    | .error failure =>
      host.complain (failure.message path)
      return 1
    | .ok () => processFiles host config paths

/-- Run the program: the exit code. -/
def run {m : Type → Type} [Monad m] (host : Host m) (arguments : List String) : m Nat := do
  match CommandLine.parse arguments with
  | .help =>
    host.print CommandLine.helpText
    return 0
  | .usageError message =>
    host.complain (CommandLine.usageErrorText message)
    return 2
  | .process [] _ =>
    host.complain "ERROR: Please provide at least one bindings file.\n"
    return 1
  | .process files propertyAccessors => processFiles host { propertyAccessors } files

end Batch

/-! ### Files and printed text -/

/-- A file system, and what has been printed. -/
structure World where
  files : FileSystem
  stdout : String := ""
  stderr : String := ""

/-- The host whose state is a world. -/
def World.host : Host (StateM World) where
  read path := return (← get).files.readFile path
  write path content := do
    match (← get).files.writeFile path content with
    | .ok files =>
      modify fun w => { w with files }
      return .ok ()
    | .error error => return .error error
  print text := modify fun w => { w with stdout := w.stdout ++ text }
  complain text := modify fun w => { w with stderr := w.stderr ++ text }

/-- Run a program on a file system: its report, and the file system that it leaves. -/
def FileSystem.runOn (fs : FileSystem) (program : StateM World Nat) : Report × FileSystem :=
  let (exitCode, w) := program.run { files := fs }
  (⟨exitCode, w.stdout, w.stderr⟩, w.files)

/-- Run the program on a file system: its report, and the file system that it leaves. -/
def FileSystem.runProgram (fs : FileSystem) (arguments : List String) : Report × FileSystem :=
  fs.runOn (Batch.run World.host arguments)

end InteropStubs
