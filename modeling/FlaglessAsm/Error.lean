import FlaglessAsm.Instruction.BitString
import FlaglessAsm.Mnemonic
import FlaglessAsm.Operand.Basic
import FlaglessAsm.Source.Line

/-!
# Assembly errors

Assembly stops at the first error.  Every error but a refused configuration has a cause on a source
line.

## What is here

* `Cause`: what is wrong with a line.
* `ConfigError`: what is wrong with a configuration or a request for read-back.
* `AsmError`: both, with `AsmError.message`, `AsmError.line?` and the chain `AsmError.causes`.
-/

set_option autoImplicit false

namespace FlaglessAsm

open Text

/-! ## Causes -/

/-- What is wrong with a source line. -/
inductive Cause where
  | unknownMnemonic (mnemonic : String)
  | operand (error : OperandError)
  | encoding (error : EncodeError)
  | unresolved (label : String)
  /-- The label is already declared on line `first`. -/
  | duplicateLabel (label : String) (first : Nat)
  /-- A conditional branch has no compare directly in front of it. -/
  | branchWithoutCompare
  /-- There is no address left behind the last word. -/
  | addressSpace (memory : Memory)
  deriving DecidableEq

/-- What is wrong with a configuration. -/
inductive ConfigError where
  /-- The base of the workspace does not fit the instruction that loads it. -/
  | workspaceBase (base : Word)
  /-- The words to be read back lie outside the address space. -/
  | readBack (start count : Word)
  deriving DecidableEq

/-- An error of the assembler. -/
inductive AsmError where
  | onLine (line : SourceLine) (cause : Cause)
  | invalidConfig (error : ConfigError)
  deriving DecidableEq

/-! ## Wording -/

/-- A text in quotation marks. -/
def quoted (s : String) : String :=
  "`" ++ s ++ "`"

/-- The wording of a cause on a line with a given text, behind the number of the line. -/
def Cause.message (text : String) : Cause → String
  | .unknownMnemonic mnemonic => "unknown mnemonic " ++ quoted mnemonic ++ " in " ++ quoted text
  | .operand _ => "malformed operand in " ++ quoted text
  | .encoding (.width bits) =>
    quoted text ++ " assembled to " ++ decimal bits ++ " bits, expected 32"
  | .encoding (.immediate value bits) =>
    "immediate " ++ decimal value ++ " does not fit in " ++ decimal bits ++ " bits in "
      ++ quoted text
  | .encoding (.displacement value bits) =>
    "branch displacement " ++ decimal value ++ " does not fit in " ++ decimal bits ++ " bits in "
      ++ quoted text
  | .unresolved label => "unresolved symbol " ++ quoted label ++ " in " ++ quoted text
  | .duplicateLabel label first =>
    "label " ++ quoted label ++ " already defined on line " ++ decimal first
  | .branchWithoutCompare =>
    "conditional branch " ++ quoted text ++ " does not directly follow a cmp"
  | .addressSpace memory => memory.name ++ " address space exhausted at " ++ quoted text

/-- The wording of a configuration error. -/
def ConfigError.message : ConfigError → String
  | .workspaceBase base =>
    "workspace_base " ++ decimal base.toNat ++ " does not fit an 8-bit immediate"
  | .readBack start count =>
    "read-back of " ++ decimal count.toNat ++ " words from " ++ decimal start.toNat
      ++ " runs past the data address space"

namespace AsmError

/-- The wording of an error. -/
def message : AsmError → String
  | .onLine line cause => "line " ++ decimal line.index ++ ": " ++ cause.message line.text
  | .invalidConfig error => "invalid configuration: " ++ error.message

/-- The number of the line an error is about. -/
def line? : AsmError → Option Nat
  | .onLine line _ => some line.index
  | .invalidConfig _ => none

/-- The wording of an error followed by that of the error behind it, if there is one. -/
def causes : AsmError → List String
  | .onLine line (.operand error) => [message (.onLine line (.operand error)), error.message]
  | error => [error.message]

end AsmError
end FlaglessAsm
