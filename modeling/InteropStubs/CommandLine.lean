import InteropStubs.Text.Characters
import InteropStubs.Text.Quoted

/-!
# The command line

What the arguments of the program ask for. Options may be abbreviated as long as they stay
unambiguous; a lone `--` ends the options; the files must all stand together. Help is given as soon
as its option is met, so it hides the mistakes behind it and the unknown options in front of it.
-/

namespace InteropStubs

/-- What the program is asked to do. -/
inductive Invocation where
  | help
  | usageError (message : String)
  | process (files : List String) (propertyAccessors : Bool)
deriving DecidableEq, Repr

namespace CommandLine

/-- The options of the program. -/
inductive Switch where
  | help
  | accessors
deriving DecidableEq, Repr

/-- The long form of an option. -/
def Switch.long : Switch → String
  | help => "--help"
  | accessors => "--property-accessors"

/-- How messages name an option. -/
def Switch.label : Switch → String
  | help => "-h/--help"
  | accessors => "--property-accessors"

/-- What an argument is on its own. -/
inductive Argument where
  | plain (text : String)
  | option (switch : Switch)
  /-- An option with a value, though it takes none. -/
  | valued (switch : Switch) (value : String)
  | unknown (text : String)
  | ambiguous (text : String)
deriving DecidableEq, Repr

/-- A text cut at its first equals sign, if it has one. -/
def cutValue (cs : List Char) : List Char × Option (List Char) :=
  match cs.dropWhile (· != '=') with
  | [] => (cs, none)
  | _ :: value => (cs.takeWhile (· != '='), some value)

/-- An option with the value that may be attached to it. -/
def withValue (switch : Switch) : Option (List Char) → Argument
  | none => .option switch
  | some value => .valued switch (String.ofList value)

/-- The letters that are attached to `-h`: repetitions of that letter and nothing else. -/
def cluster : List Char → Argument
  | [] => .option .help
  | 'h' :: cs => cluster cs
  | cs => .valued .help (String.ofList cs)

/-- A text without the line feed at its end. -/
def dropLineFeed (cs : List Char) : List Char :=
  if cs.getLast? = some '\n' then cs.dropLast else cs

/-- Whether a text is a negative number, which is no option. Its digits are those of any script,
and a line feed may end it. -/
def isNegativeNumber (cs : List Char) : Bool :=
  match dropLineFeed cs with
  | '-' :: body =>
    match body.dropWhile Text.isDecimalDigit with
    | [] => !body.isEmpty
    | '.' :: digits => !digits.isEmpty && digits.all Text.isDecimalDigit
    | _ => false
  | _ => false

/-- What an argument is that begins with a dash and is no option: a number or a text with a blank
is no option at all. -/
def otherDashed (cs : List Char) : Argument :=
  let text := String.ofList cs
  if isNegativeNumber cs || cs.contains ' ' then .plain text else .unknown text

/-- What an argument is in front of `--`. -/
def classify (text : String) : Argument :=
  match text.toList with
  | [] => .plain text
  | ['-'] => .plain text
  | '-' :: '-' :: cs =>
    let (beginning, value) := cutValue ('-' :: '-' :: cs)
    match [Switch.help, .accessors].filter fun s => beginning.isPrefixOf s.long.toList with
    | [switch] => withValue switch value
    | [] => otherDashed ('-' :: '-' :: cs)
    | _ => .ambiguous text
  | ['-', 'h', '='] => .valued .help ""
  | '-' :: 'h' :: '=' :: cs => cluster cs
  | '-' :: 'h' :: cs => cluster cs
  | '-' :: cs => otherDashed ('-' :: cs)
  | _ => .plain text

/-- What the arguments are; behind `--` they are all plain. -/
def classifyAll : List String → List Argument
  | [] => []
  | text :: texts =>
    if text = "--" then (text :: texts).map .plain else classify text :: classifyAll texts

/-- The message for an argument that could be several options. -/
def ambiguousMessage (text : String) : String :=
  "ambiguous option: " ++ text ++ " could match " ++ Switch.help.long ++ ", "
    ++ Switch.accessors.long

/-- The message for a value that an option does not take. -/
def ignoredMessage (switch : Switch) (value : String) : String :=
  "argument " ++ switch.label ++ ": ignored explicit argument " ++ Text.quoted value

/-- What is known while the arguments are taken one by one. -/
structure Progress where
  /-- The files, once a row of plain arguments is over. -/
  files : Option (List String) := none
  propertyAccessors : Bool := false
  /-- What cannot be taken. -/
  extras : List String := []
  /-- The row of plain arguments that is going on. -/
  row : List String := []

/-- End a row of plain arguments: the first row holds the files, less one `--`, and all others
are too many. -/
def Progress.endRow (p : Progress) : Progress :=
  if p.row.isEmpty then p
  else match p.files with
  | none => { p with files := some (p.row.erase "--"), row := [] }
  | some _ => { p with extras := p.extras ++ p.row, row := [] }

/-- Take the arguments in order. -/
def interpret (p : Progress) : List Argument → Invocation
  | [] =>
    let p := p.endRow
    if p.extras.isEmpty then .process (p.files.getD []) p.propertyAccessors
    else .usageError ("unrecognized arguments: " ++ " ".intercalate p.extras)
  | .plain text :: rest => interpret { p with row := p.row ++ [text] } rest
  | .option .help :: _ => .help
  | .option .accessors :: rest => interpret { p.endRow with propertyAccessors := true } rest
  | .valued switch value :: _ => .usageError (ignoredMessage switch value)
  | .unknown text :: rest =>
    let p := p.endRow
    interpret { p with extras := p.extras ++ [text] } rest
  | .ambiguous text :: _ => .usageError (ambiguousMessage text)

/-- What the arguments ask for. An ambiguous option is an error whatever else is there. -/
def parse (texts : List String) : Invocation :=
  let arguments := classifyAll texts
  match arguments.find? fun | .ambiguous _ => true | _ => false with
  | some a => interpret {} [a]
  | none => interpret {} arguments

/-- The line that shows how the program is called. -/
def usage : String := "usage: jsbind [-h] [--property-accessors] [FILE ...]\n"

/-- What help prints. -/
def helpText : String :=
  usage
    ++ "\nGenerate JSObject bindings from C# interface declarations\n"
    ++ "\npositional arguments:\n"
    ++ "  FILE                  Declaration files; FILE.ext is generated as FILE.g.ext\n"
    ++ "\noptions:\n"
    ++ "  -h, --help            show this help message and exit\n"
    ++ "  --property-accessors  Emit get/set forwarding for properties instead of\n"
    ++ "                        empty accessor blocks\n"

/-- What a usage error prints. -/
def usageErrorText (message : String) : String :=
  usage ++ "jsbind: error: " ++ message ++ "\n"

end CommandLine

end InteropStubs
