import FlaglessAsm.CommandLine.Inspect

/-!
# The program

The first argument chooses the command, `assemble` or `inspect`.  This is the only module that
touches the file system.

## What is here

* `systemFiles`: access to the files of the system.
* `main`: the program.
-/

set_option autoImplicit false

namespace FlaglessAsm
namespace CommandLine

/-- The number of an error of the system, which may be reported with the opposite sign. -/
def errorNumber (code : UInt32) : Nat :=
  min code.toNat (0 - code).toNat

/-- An error of the system as an error of a command. -/
def fileError : IO.Error → FileError
  | .noFileOrDirectory .. => .notFound
  | .inappropriateType path code details =>
    match errorNumber code with
    | 20 => .notDirectory
    | 21 => .isDirectory
    | _ => .other (IO.Error.inappropriateType path code details).toString
  | .invalidArgument path code details =>
    match errorNumber code with
    | 36 => .tooLong
    | _ => .other (IO.Error.invalidArgument path code details).toString
  | e => .other e.toString

/-- Access to the files of the system. -/
def systemFiles : FileAccess IO where
  read path := do
    match ← EIO.toBaseIO (IO.FS.readBinFile path) with
    | .error e => return .error (fileError e)
    | .ok bytes =>
      match String.fromUTF8? bytes with
      | some text => return .ok text
      | none => return .error .notText
  write path text := do
    match ← EIO.toBaseIO (IO.FS.writeFile path text) with
    | .error e => return .error (fileError e)
    | .ok () => return .ok ()

/-- Prints an outcome and returns its exit code. -/
def report (outcome : Outcome) : IO UInt32 := do
  IO.print outcome.output
  IO.eprint outcome.errors
  return outcome.exitCode.toUInt32

end CommandLine
end FlaglessAsm

open FlaglessAsm.CommandLine in
/-- The program. -/
def main (arguments : List String) : IO UInt32 := do
  match arguments with
  | "assemble" :: rest => report (← assembleCommand systemFiles rest)
  | "inspect" :: rest => report (← inspectCommand systemFiles rest)
  | _ => report .badArguments
