import FlaglessAsm.Error
import FlaglessAsm.Operand.Reader

/-!
# Statements

A source line holds one statement: a label, a data word, or an instruction.

## What is here

* `DataOperand`, `Statement`: what a line says.
* `Statement.read`: the statement of a line.
* `SourceStatement`: a statement with the line it came from.
-/

set_option autoImplicit false

namespace FlaglessAsm

open Text

/-- The operand of a data word. -/
inductive DataOperand where
  | value (n : Int)
  /-- A label: nothing is stored, and the data ends here. -/
  | symbol (name : String)
  deriving DecidableEq

/-- What a source line says. -/
inductive Statement where
  | label (name : String)
  | word (operand : DataOperand)
  | instruction (mnemonic : Mnemonic) (operands : List Operand)
  deriving DecidableEq

namespace Statement

/-- Whether a statement is a label. -/
def isLabel : Statement → Bool
  | .label _ => true
  | _ => false

/-- The operand of a data word: a number, or else the name of a label. -/
def readDataOperand (s : List Char) : Except OperandError DataOperand :=
  match readNumber s with
  | .ok value => .ok (.value value)
  | .error e => if isIdentifier s then .ok (.symbol (String.ofList s)) else .error e

/-- The statement with a given mnemonic and text behind it. -/
def readBody (mnemonic : Mnemonic) (operands : List Char) : Except OperandError Statement :=
  if mnemonic.operation = .word then (readDataOperand operands).map .word
  else (readOperands operands).map (.instruction mnemonic)

/-- The statement of a trimmed text.  A final `:` makes it a label; otherwise it starts with a
mnemonic, which ends at the first blank. -/
def readText (s : List Char) : Except Cause Statement :=
  match stripLast? ':' s with
  | some name =>
    let name := trim name
    if isIdentifier name then .ok (.label (String.ofList name))
    else .error (.operand (.unparsable (String.ofList name)))
  | none =>
    let name := s.takeWhile fun c => !isBlank c
    match Mnemonic.find? name with
    | none => .error (.unknownMnemonic (String.ofList name))
    | some mnemonic =>
      (readBody mnemonic (trim (s.dropWhile fun c => !isBlank c))).mapError .operand

/-- The statement of a line. -/
def read (line : SourceLine) : Except AsmError Statement :=
  (readText (trim line.text.toList)).mapError (.onLine line)

end Statement

/-- A statement and the line it stands on. -/
structure SourceStatement where
  line : SourceLine
  statement : Statement
  deriving DecidableEq

/-- The statements of a list of lines, up to the first line that has none. -/
def SourceStatement.readAll (lines : List SourceLine) : Except AsmError (List SourceStatement) :=
  lines.mapM fun line => (Statement.read line).map (SourceStatement.mk line)

end FlaglessAsm
