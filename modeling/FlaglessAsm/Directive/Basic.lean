import FlaglessAsm.Text.Blank
import FlaglessAsm.Text.Numeral
import FlaglessAsm.Word

/-!
# Load directives

A program reaches the machine as a list of directives, one per line of text.

## What is here

* `Directive`: the directives.
* `Directive.render`, `Directive.read`: a directive as a line of text, and back.
-/

set_option autoImplicit false

namespace FlaglessAsm

open Text

/-- A request to the machine. -/
inductive Directive where
  | dataWrite (address : Address) (high low : Word)
  | dataRead (address : Address)
  | instructionWrite (address : Address) (word : Word)
  | pcReset
  | step
  | run (enable : Bool)
  deriving DecidableEq

/-- A line that is not a directive. -/
structure DirectiveError where
  line : String
  deriving DecidableEq

/-- The wording of the error for a line that is not a directive. -/
def DirectiveError.message (e : DirectiveError) : String :=
  "bad directive line `" ++ e.line ++ "`"

namespace Directive

/-- The line of a directive. -/
def render : Directive → String
  | .dataWrite address high low =>
    "dmem_write " ++ decimal address.toNat ++ " " ++ hex high.toNat ++ " " ++ hex low.toNat
  | .dataRead address => "dmem_read " ++ decimal address.toNat
  | .instructionWrite address word =>
    "imem_write " ++ decimal address.toNat ++ " " ++ hex word.toNat
  | .pcReset => "pcreset"
  | .step => "step"
  | .run enable => if enable then "run 1" else "run 0"

/-- A number of a directive: hexadecimal behind `0x`, decimal otherwise, and of at most 32 bits. -/
def number? (s : List Char) : Option Word :=
  let value := match s with
    | '0' :: 'x' :: ds | '0' :: 'X' :: ds => unsigned? 16 ds
    | _ => unsigned? 10 s
  value.bind Word.ofNat?

/-- The directive with a given name and arguments. -/
def ofWords? (name : String) (arguments : List (List Char)) : Option Directive :=
  match name, arguments with
  | "dmem_write", [address, high, low] =>
    return .dataWrite (← number? address) (← number? high) (← number? low)
  | "dmem_read", [address] => return .dataRead (← number? address)
  | "imem_write", [address, word] => return .instructionWrite (← number? address) (← number? word)
  | "pcreset", [] => some .pcReset
  | "step", [] => some .step
  | "run", [['1']] => some (.run true)
  | "run", [['0']] => some (.run false)
  | _, _ => none

/-- The directive of a line. -/
def read (line : List Char) : Except DirectiveError Directive :=
  let directive := match words line with
    | name :: arguments => ofWords? (String.ofList name) arguments
    | [] => none
  match directive with
  | some d => .ok d
  | none => .error ⟨String.ofList line⟩

end Directive
end FlaglessAsm
