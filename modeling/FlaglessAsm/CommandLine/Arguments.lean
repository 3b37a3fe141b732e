import FlaglessAsm.Text.Numeral
import FlaglessAsm.Word

/-!
# Command line arguments

Options are `--name` or, with a value, `--name value` or `--name=value`; a one-letter option takes
its value as `-x value`, `-xvalue` or `-x=value`.  An option occurs at most once.  A value that is
not attached does not start with `-`, unless it is `-` alone.  Behind `--` there are no options.  A
command is a word in place of a positional argument, and takes the remaining arguments.

## What is here

* `OptionSpec`, `Grammar`: the options and commands that are understood.
* `Arguments`, `Grammar.parse?`: the parts of a list of arguments.
* `Arguments.value?`, `Arguments.word?`, `Arguments.path?`: the values of options.
-/

set_option autoImplicit false

namespace FlaglessAsm
namespace CommandLine

/-! ## Grammar -/

/-- An option. -/
structure OptionSpec where
  name : String
  letter : Option Char := none
  takesValue : Bool := true

/-- The options and commands that are understood. -/
structure Grammar where
  options : List OptionSpec
  commands : List String := []

/-- The parts of a list of arguments. -/
structure Arguments where
  /-- The options with their values; the value of a plain flag is empty. -/
  options : List (String × String) := []
  positionals : List String := []
  /-- A command and the arguments behind it. -/
  command : Option (String × List String) := none

/-! ## Parsing -/

namespace Arguments

/-- Adds an option that has not occurred. -/
def addOption? (a : Arguments) (spec : OptionSpec) (value : String) : Option Arguments :=
  if a.options.any fun o => o.1 == spec.name then none
  else some { a with options := (spec.name, value) :: a.options }

/-- Adds a positional argument. -/
def addPositional (a : Arguments) (value : String) : Arguments :=
  { a with positionals := a.positionals ++ [value] }

end Arguments

/-- Whether an argument can be the value of the option in front of it. -/
def isValue (argument : String) : Bool :=
  match argument.toList with
  | '-' :: _ :: _ => false
  | _ => true

/-- An argument that starts with `-`, as the option it names and the value attached to it. -/
def Grammar.option? (g : Grammar) (argument : List Char) : Option (OptionSpec × Option String) :=
  match argument with
  | '-' :: '-' :: text =>
    let name := text.takeWhile (· != '=')
    let value := match text.dropWhile (· != '=') with
      | _ :: value => some (String.ofList value)
      | [] => none
    (g.options.find? fun o => o.name == String.ofList name).map fun o => (o, value)
  | '-' :: letter :: attached =>
    let value := match attached with
      | [] => none
      | '=' :: value => some (String.ofList value)
      | value => some (String.ofList value)
    (g.options.find? fun o => o.letter == some letter).map fun o => (o, value)
  | _ => none

/-- The parts of a list of arguments behind the parts `a`, the first of them the value of `pending`
if there is such an option. -/
def Grammar.parseFrom? (g : Grammar) (a : Arguments) (pending : Option OptionSpec) :
    List String → Option Arguments
  | [] => if pending.isSome then none else some a
  | argument :: rest =>
    match pending with
    | some spec =>
      if isValue argument then (a.addOption? spec argument).bind fun a => g.parseFrom? a none rest
      else none
    | none =>
      if argument == "--" then some { a with positionals := a.positionals ++ rest }
      else if g.commands.contains argument then some { a with command := some (argument, rest) }
      else if isValue argument then g.parseFrom? (a.addPositional argument) none rest
      else
        match g.option? argument.toList with
        | none => none
        | some (spec, attached) =>
          match spec.takesValue, attached with
          | true, some value => (a.addOption? spec value).bind fun a => g.parseFrom? a none rest
          | true, none => g.parseFrom? a (some spec) rest
          | false, none => (a.addOption? spec "").bind fun a => g.parseFrom? a none rest
          | false, some _ => none

/-- The parts of a list of arguments. -/
def Grammar.parse? (g : Grammar) (arguments : List String) : Option Arguments :=
  g.parseFrom? {} none arguments

/-! ## Values -/

namespace Arguments

/-- Whether a plain flag is given. -/
def flag (a : Arguments) (name : String) : Bool :=
  a.options.any fun o => o.1 == name

/-- The value of an option, read by `read`, which may refuse it. -/
def value? {α : Type} (a : Arguments) (name : String) (read : String → Option α) :
    Option (Option α) :=
  match a.options.lookup name with
  | none => some none
  | some text => (read text).map some

/-- A 32-bit number in decimal digits, with an optional sign. -/
def readWord (text : String) : Option Word :=
  (Text.signed? 10 text.toList).bind Word.ofInt?

/-- A path, which is not empty. -/
def readPath (text : String) : Option String :=
  if text.isEmpty then none else some text

/-- The number that an option gives. -/
def word? (a : Arguments) (name : String) : Option (Option Word) :=
  a.value? name readWord

/-- The path that an option gives. -/
def path? (a : Arguments) (name : String) : Option (Option String) :=
  a.value? name readPath

/-- The only positional argument, a path. -/
def onlyPath? (a : Arguments) : Option String :=
  match a.positionals with
  | [path] => readPath path
  | _ => none

end Arguments
end CommandLine
end FlaglessAsm
