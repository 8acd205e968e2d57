import InteropStubs.Token.Scan

/-!
# Directives

A directive begins with `#` wherever it stands. `#if`, `#elif`, `#else` and `#endif` enclose
declarations; all others are trivia. A directive has arguments, and it ends with the first line
break at which they are complete: `Directive.isComplete` says for every directive which arguments
make sense, and `Directive.extent` how far the directive goes.
-/

namespace InteropStubs

/-- What directives are told apart by. -/
inductive Directive where
  | condition
  | nullable
  | line
  | pragma
  /-- A directive with free text that nobody reads. -/
  | free
deriving DecidableEq, Repr

namespace Directive

open Text Scan

/-! ### Arguments -/

/-- An argument of a directive. -/
inductive Argument where
  | word (text : String)
  | integer
  | string
  | character
  /-- An operator, a bracket or a comma. -/
  | mark (text : String)
deriving DecidableEq, Repr

/-- The marks among the arguments, longest first. -/
def marks : List String :=
  ["&&", "||", "==", "!=", "!", "(", ")", ",", "-"]

/-- The argument at the beginning of a text, and its size. -/
def argument? (cs : List Char) : Option (Argument × Nat) :=
  if let some size := word? cs then some (.word (String.ofList (cs.take size)), size)
  else if let some size := number? cs then
    if integer? cs = some size then some (.integer, size) else none
  else if let some size := string? cs then some (.string, size)
  else match cs with
  | '\x27' :: rest => (characterRest? rest).map fun size => (.character, size + 1)
  | _ =>
    (marks.find? fun m => m.toList.isPrefixOf cs).map fun m => (.mark m, m.toList.length)

/-- Whether a condition is complete: an operand where one is due, an operator where one is due,
and every parenthesis closed. `afterOperand` says which is due, `opened` counts parentheses. -/
def isCondition (afterOperand : Bool) (opened : Nat) : List Argument → Bool
  | [] => afterOperand && opened == 0
  | .mark "!" :: rest => !afterOperand && isCondition false opened rest
  | .mark "(" :: rest => !afterOperand && isCondition false (opened + 1) rest
  | .mark ")" :: rest => afterOperand && opened != 0 && isCondition true (opened - 1) rest
  | .mark m :: rest =>
    afterOperand && ["&&", "||", "==", "!="].contains m && isCondition false opened rest
  | .string :: _ => false
  | _ :: rest => !afterOperand && isCondition true opened rest

/-- A setting of `#nullable`, and possibly what it is for. -/
def isNullable : List Argument → Bool
  | [.word setting] => ["enable", "disable", "restore"].contains setting
  | [.word setting, .word target] =>
    ["enable", "disable", "restore"].contains setting
      && ["annotations", "warnings"].contains target
  | _ => false

/-- A setting of `#line`, or a line number and possibly a file, or a span of characters and its
file. -/
def isLine : List Argument → Bool
  | [.word setting] => ["default", "hidden"].contains setting
  | [.integer] => true
  | [.integer, .string] => true
  | .mark "(" :: .integer :: .mark "," :: .integer :: .mark ")" :: .mark "-" :: .mark "("
      :: .integer :: .mark "," :: .integer :: .mark ")" :: rest =>
    rest == [.string] || rest == [.integer, .string]
  | _ => false

/-- Warning codes with commas between. -/
def areCodes : List Argument → Bool
  | [code] => code matches .word _ || code == .integer
  | code :: .mark "," :: rest => (code matches .word _ || code == .integer) && areCodes rest
  | _ => false

/-- Warning codes to disable or restore, or a checksum of three strings. -/
def isPragma : List Argument → Bool
  | .word "warning" :: .word action :: codes =>
    ["disable", "restore"].contains action && (codes.isEmpty || areCodes codes)
  | [.word "checksum", .string, .string, .string] => true
  | _ => false

/-- Whether a directive may end with the given arguments. -/
def isComplete : Directive → List Argument → Bool
  | condition, args => isCondition false 0 args
  | nullable, args => isNullable args
  | line, args => isLine args
  | pragma, args => isPragma args
  | free, args => args.isEmpty

/-! ### Extents -/

/-- How the text behind `#` is to be read. -/
inductive Extent where
  /-- Trivia of this many characters, the line break included. -/
  | trivia (size : Nat)
  /-- One of the enclosing directives. -/
  | enclosing (size : Nat)
  /-- The interpreter line that may open a file. -/
  | shebang (size : Nat)
  /-- A directive of this name that the end of the input cuts off before its line break. -/
  | cutOff (name : String) (size : Nat)
  | malformed
deriving DecidableEq, Repr

/-- The size of the free text that some directives take. It stops before the line break and
before a block comment, and goes on where a slash or a backslash precedes the line break. -/
def freeText : List Char → Nat
  | [] => 0
  | ['/'] => 0
  | '\n' :: _ => 0
  | '\\' :: '\n' :: cs => freeText cs + 2
  | '\\' :: '\r' :: '\n' :: cs => freeText cs + 3
  | '/' :: '*' :: _ => 0
  | '/' :: _ :: cs => freeText cs + 2
  | _ :: cs => freeText cs + 1

/-- A character that means nothing in free text is passed over. -/
theorem freeText_of_ne {c : Char} (hslash : c ≠ '/') (hbreak : c ≠ '\n') (hback : c ≠ '\\') (cs : List Char) :
    freeText (c :: cs) = freeText cs + 1 := by
  rw [freeText]
  · exact fun heq => absurd heq hslash
  · exact hbreak
  · exact fun _ heq => absurd heq hback
  · exact fun _ heq => absurd heq hback
  · exact fun _ heq => absurd heq hslash
  · exact fun _ _ heq => absurd heq hslash

/-- The size of the arguments of a directive with the line break that ends them, or without one
where the input ends first, and whether a comment is among them. The arguments `read` are known
already, and `bound` is how many steps are left. -/
def ending? (d : Directive) (read : List Argument) :
    (bound : Nat) → List Char → Option (Gap × Bool)
  | 0, _ => none
  | bound + 1, cs =>
    let lead := gapInLine cs
    let behind (size : Nat) (hasComment : Bool) (r : Gap × Bool) : Gap × Bool :=
      (⟨size + r.1.size, hasComment || r.1.hasComment⟩, r.2)
    match cs.drop lead.size with
    | [] => if d.isComplete read then some (lead, false) else none
    | c :: rest =>
      if c == '\n' then
        if d.isComplete read then some (⟨lead.size + 1, lead.hasComment⟩, true)
        else (ending? d read bound rest).map (behind (lead.size + 1) lead.hasComment)
      else
        match argument? (c :: rest) with
        | some (a, size) =>
          (ending? d (read ++ [a]) bound ((c :: rest).drop size)).map
            (behind (lead.size + size) lead.hasComment)
        | none => none

/-- The extent of a directive of which `size` characters are read already and `cs` follows. A
directive that is cut off is told by its name only if no comment is in it. -/
def extentBehind (name : String) (d : Directive) (read : Gap) (cs : List Char) : Extent :=
  match d.ending? [] (cs.length + 1) cs with
  | some (gap, true) =>
    let size := read.size + gap.size
    if d = condition then .enclosing size else .trivia size
  | some (gap, false) =>
    if d = condition || read.hasComment || gap.hasComment then .malformed
    else .cutOff name (read.size + gap.size)
  | none => .malformed

/-- The names of directives. -/
def names : List String := [
  "if", "elif", "else", "endif", "region", "endregion", "define", "undef", "line", "error",
  "warning", "pragma", "nullable"]

/-- The directives with free text that may have none. Without it the others take it from one of the
following lines. -/
def isTextOptional (name : String) : Bool :=
  name == "region" || name == "endregion"

/-- The extent of a directive by its name, where `size` characters are read already and `cs`
follows. -/
def extentOf (name : String) (size : Nat) (cs : List Char) : Extent :=
  match name with
  | "else" | "endif" => .enclosing size
  | "if" | "elif" => extentBehind name condition ⟨size, false⟩ cs
  | "nullable" => extentBehind name nullable ⟨size, false⟩ cs
  | "line" => extentBehind name line ⟨size, false⟩ cs
  | "pragma" => extentBehind name pragma ⟨size, false⟩ cs
  | _ =>
    let lead := if isTextOptional name then gapInLine cs else gap cs
    let text := cs.drop lead.size
    let taken := freeText text
    if taken == 0 && !isTextOptional name then .malformed
    else extentBehind name free ⟨size + lead.size + taken, lead.hasComment⟩ (text.drop taken)

/-- The extent of a directive, given the text behind its `#`. Sizes do not count the `#`. -/
def extent (cs : List Char) : Extent :=
  match cs with
  | '!' :: rest => .shebang (countWhile (· != '\n') rest + 1)
  | _ =>
    let blanks := countWhile (fun c => c == ' ' || c == '\t') cs
    let text := cs.drop blanks
    match names.find? fun name => name.toList.isPrefixOf text with
    | some name =>
      let size := name.toList.length
      extentOf name (blanks + size) (text.drop size)
    | none => .malformed

end Directive

end InteropStubs
