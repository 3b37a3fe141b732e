import FlaglessAsm.CommandLine.Assemble
import FlaglessAsm.Image.Report

/-!
# Inspecting a directive file as a command

Reads a directive file and prints its sections, or a listing of its instructions.

## What is here

* `View`, `InspectOptions`, `InspectOptions.parse?`: the arguments of the command.
* `inspectCommand`: the command.
-/

set_option autoImplicit false

namespace FlaglessAsm
namespace CommandLine

/-! ## Arguments -/

/-- What is shown of a directive file. -/
inductive View where
  | sections
  /-- The instructions and, as text, the data if asked for; written to a file if one is named. -/
  | listing (format : Format) (withData : Bool) (output : Option String)

/-- The arguments of the command. -/
structure InspectOptions where
  source : String
  view : View

namespace InspectOptions

/-- The arguments in front of the view. -/
def grammar : Grammar where
  options := []
  commands := ["sections", "listing"]

/-- The options of a listing. -/
def listingGrammar : Grammar where
  options := [{ name := "format" }, { name := "data", takesValue := false }, { name := "out" }]

/-- The view with a given name and arguments. -/
def parseView? (name : String) (arguments : List String) : Option View := do
  if name == "sections" then
    let a ← Grammar.parse? ⟨[], []⟩ arguments
    if a.positionals.isEmpty then return .sections else none
  else
    let a ← listingGrammar.parse? arguments
    if a.positionals.isEmpty then
      return .listing ((← a.value? "format" Format.ofName?).getD .text) (a.flag "data")
        (← a.path? "out")
    else none

/-- The options that a list of arguments gives. -/
def parse? (arguments : List String) : Option InspectOptions := do
  let a ← grammar.parse? arguments
  let (name, arguments) ← a.command
  return { source := ← a.onlyPath?, view := ← parseView? name arguments }

end InspectOptions

/-! ## The command -/

variable {m : Type → Type} [Monad m]

/-- The image of a directive file. -/
def loadImage (files : FileAccess m) (path : String) : Command m Image := do
  match Image.ofText (← Command.readFile files "reading" path) with
  | .ok img => return img
  | .error e => throw ⟨"parsing " ++ path, [e.message]⟩

/-- Shows a directive file; returns what is to be printed. -/
def inspectFile (files : FileAccess m) (o : InspectOptions) : Command m String := do
  let img ← loadImage files o.source
  match o.view with
  | .sections => return img.sectionTable
  | .listing format withData output =>
    let text := match format with
      | .text => img.listing withData
      | .json => img.report.render ++ "\n"
    match output with
    | none => return text
    | some path =>
      match ← files.write path text with
      | .ok () => return ""
      | .error e => throw ⟨e.message, []⟩

/-- The inspection of a directive file with given arguments. -/
def inspectCommand (files : FileAccess m) (arguments : List String) : m Outcome :=
  match InspectOptions.parse? arguments with
  | none => pure .badArguments
  | some o => (inspectFile files o).outcome

end CommandLine
end FlaglessAsm
