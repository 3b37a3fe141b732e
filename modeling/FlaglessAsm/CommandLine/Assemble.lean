import FlaglessAsm.CommandLine.Arguments
import FlaglessAsm.CommandLine.Outcome
import FlaglessAsm.Config.Document
import FlaglessAsm.Program.Listing
import FlaglessAsm.Program.Report
import FlaglessAsm.Session.Resolution
import FlaglessAsm.Text.Lines

/-!
# The assembler as a command

Assembles a source file and prints its directives, a listing, or a JSON report.

## What is here

* `Format`: the format of the output.
* `AssembleOptions`, `AssembleOptions.parse?`: the arguments of the command.
* `assembleCommand`: the command.
-/

set_option autoImplicit false

namespace FlaglessAsm
namespace CommandLine

/-! ## Arguments -/

/-- The format of an output. -/
inductive Format where
  | text
  | json
  deriving DecidableEq

/-- The format with a given name. -/
def Format.ofName? : String → Option Format
  | "text" => some .text
  | "json" => some .json
  | _ => none

/-- The arguments of the command. -/
structure AssembleOptions where
  source : String
  output : Option String
  config : Option String
  textStart : Option Word
  dataStart : Option Word
  workspaceBase : Option Word
  hazardPad : Option Word
  padPolicy : Option PadPolicy
  relaxedCompare : Bool
  noPrologue : Bool
  /-- Whether the program is started. -/
  run : Bool
  /-- How many steps are made. -/
  steps : Word
  /-- How many data words are read back. -/
  readBack : Word
  format : Format
  listing : Bool

namespace AssembleOptions

/-- The options of the command. -/
def grammar : Grammar where
  options :=
    [ { name := "output", letter := some 'o' }, { name := "config" }, { name := "text-start" },
      { name := "data-start" }, { name := "workspace" }, { name := "pad" },
      { name := "pad-policy" }, { name := "relaxed-compare", takesValue := false },
      { name := "no-prologue", takesValue := false }, { name := "run", takesValue := false },
      { name := "step" }, { name := "readback" }, { name := "format" },
      { name := "listing", takesValue := false } ]

/-- The options that a list of arguments gives. -/
def parse? (arguments : List String) : Option AssembleOptions := do
  let a ← grammar.parse? arguments
  return {
    source := ← a.onlyPath?
    output := ← a.path? "output"
    config := ← a.path? "config"
    textStart := ← a.word? "text-start"
    dataStart := ← a.word? "data-start"
    workspaceBase := ← a.word? "workspace"
    hazardPad := ← a.word? "pad"
    padPolicy := ← a.value? "pad-policy" PadPolicy.ofName?
    relaxedCompare := a.flag "relaxed-compare"
    noPrologue := a.flag "no-prologue"
    run := a.flag "run"
    steps := (← a.word? "step").getD 0
    readBack := (← a.word? "readback").getD 0
    format := (← a.value? "format" Format.ofName?).getD .text
    listing := a.flag "listing" }

/-- A configuration changed by the options. -/
def override (o : AssembleOptions) (config : Config) : Config where
  textStart := o.textStart.getD config.textStart
  dataStart := o.dataStart.getD config.dataStart
  workspaceBase := o.workspaceBase.getD config.workspaceBase
  hazardPad := o.hazardPad.getD config.hazardPad
  padPolicy := o.padPolicy.getD config.padPolicy
  strictCompare := config.strictCompare && !o.relaxedCompare
  prologue := config.prologue && !o.noPrologue

/-! ## The program -/

/-- The failure of an assembly. -/
def failure (o : AssembleOptions) : AsmError → Failure
  | .invalidConfig e => ⟨(AsmError.invalidConfig e).message, []⟩
  | e => ⟨"assembling " ++ o.source, e.causes⟩

/-- The program of a source text, with the directives that the options ask for behind it. -/
def program (o : AssembleOptions) (config : Config) (source : String) :
    Except Failure Program := do
  let lines := SourceLine.ofTexts ((Text.lines source.toList).map String.ofList)
  let program ← (assemble config lines).mapError o.failure
  let program := if o.run then program.push (.run true) else program
  let program := program.pushMany o.steps.toNat .step
  if o.readBack = 0 then return program
  else (program.pushReadBack config.dataStart o.readBack).mapError o.failure

/-- The output for a program. -/
def render (o : AssembleOptions) (program : Program) : String :=
  match o.format, o.listing with
  | .json, _ => program.report.render ++ "\n"
  | .text, true => program.listing
  | .text, false => program.render

end AssembleOptions

/-! ## The command -/

variable {m : Type → Type} [Monad m]

/-- The configuration that the options ask for. -/
def configuration (files : FileAccess m) (o : AssembleOptions) : Command m Config := do
  match o.config with
  | none => return o.override {}
  | some path =>
    match Config.ofJson? (← Command.readFile files "reading config" path) with
    | some config => return o.override config
    | none => throw ⟨"parsing config " ++ path, ["the document is not a configuration"]⟩

/-- Assembles a source file; returns what is to be printed. -/
def assembleFile (files : FileAccess m) (o : AssembleOptions) : Command m String := do
  let config ← configuration files o
  let source ← Command.readFile files "reading" o.source
  match o.program config source with
  | .error failure => throw failure
  | .ok program =>
    match o.output with
    | none => return o.render program
    | some path =>
      match ← files.write path (o.render program) with
      | .ok () => return ""
      | .error e => throw ⟨"writing " ++ path, [e.message]⟩

/-- The assembler with given arguments. -/
def assembleCommand (files : FileAccess m) (arguments : List String) : m Outcome :=
  match AssembleOptions.parse? arguments with
  | none => pure .badArguments
  | some o => (assembleFile files o).outcome

end CommandLine
end FlaglessAsm
