import FlaglessAsm.CommandLine.Files
import FlaglessAsm.Text.Numeral

/-!
# Outcomes of a command

## What is here

* `Failure`: what went wrong, and the causes behind it.
* `Outcome`: exit code and output.
* `Command`: a computation that reads and writes files and can fail.
-/

set_option autoImplicit false

namespace FlaglessAsm
namespace CommandLine

/-- What went wrong: a summary, and the causes behind it from the outside in. -/
structure Failure where
  summary : String
  causes : List String := []

/-- The lines of a list of causes, which are numbered if there are several. -/
def Failure.renderCauses : List String → String
  | [] => ""
  | [cause] => "\nCaused by:\n    " ++ cause ++ "\n"
  | causes =>
    causes.zipIdx.foldl
      (fun text (cause, k) => text ++ "    " ++ Text.decimal k ++ ": " ++ cause ++ "\n")
      "\nCaused by:\n"

/-- The text of a failure. -/
def Failure.render (f : Failure) : String :=
  "Error: " ++ f.summary ++ "\n" ++ Failure.renderCauses f.causes

/-- What a command leaves behind. -/
structure Outcome where
  exitCode : UInt8
  output : String := ""
  errors : String := ""

/-- The outcome of a command with arguments that are not understood. -/
def Outcome.badArguments : Outcome where
  exitCode := 2
  errors := "error: the arguments are not understood\n"

/-- A computation with access to files that can fail. -/
abbrev Command (m : Type → Type) (α : Type) := ExceptT Failure m α

namespace Command

variable {m : Type → Type} [Monad m]

/-- The text of a file; `doing` says what reading it is for. -/
def readFile (files : FileAccess m) (doing path : String) : Command m String := do
  match ← files.read path with
  | .ok text => return text
  | .error e => throw ⟨doing ++ " " ++ path, [e.message]⟩

/-- The outcome of a computation that returns the text to be printed. -/
def outcome (command : Command m String) : m Outcome := do
  match ← command.run with
  | .ok output => return { exitCode := 0, output }
  | .error failure => return { exitCode := 1, errors := failure.render }

end Command
end CommandLine
end FlaglessAsm
