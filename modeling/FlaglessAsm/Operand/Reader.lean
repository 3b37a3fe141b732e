import FlaglessAsm.Operand.Literal
import FlaglessAsm.Operand.Nesting

/-!
# Reading operands

The first and last characters of an operand decide its form: `#` an immediate, `[` a memory
operand, a curly bracket a register list, a final `!` a moving base.  What is left is a register if
it has the name of one, and a label otherwise.

## What is here

* `isIdentifier`: the names a label may have.
* `readRegister`: a register that source text may name.
* `readMemory`, `readRegisterList`, `readOperand`: one operand.
* `readOperands`: a list of operands.
-/

set_option autoImplicit false

namespace FlaglessAsm

open Text

/-! ## Names -/

/-- The characters a label may start with. -/
def isIdentifierStart (c : Char) : Bool :=
  c.isAlpha || c == '_' || c == '.'

/-- The characters a label may go on with. -/
def isIdentifierRest (c : Char) : Bool :=
  c.isAlphanum || c == '_' || c == '.' || c == '$'

/-- Whether a text can be the name of a label. -/
def isIdentifier : List Char → Bool
  | [] => false
  | c :: cs => isIdentifierStart c && cs.all isIdentifierRest

/-- The register that a text names.  The name `r0` stands for an ordinary register, and the
registers of the assembler are refused. -/
def readRegister (s : List Char) : Except OperandError Register :=
  match Register.ofName? (trim s) with
  | none => .error (.unknownRegister (String.ofList (trim s)))
  | some r =>
    if r = .zero then .ok .sourceZero
    else if r.isReserved then .error (.reservedRegister r)
    else .ok r

/-! ## One operand -/

/-- A text that ends in `last`, without that character. -/
def stripLast? (last : Char) (s : List Char) : Option (List Char) :=
  if s.getLast? = some last then some s.dropLast else none

/-- The offset of a memory operand: an immediate. -/
def readOffset : List Char → Except OperandError Int
  | '#' :: s => readImmediate s
  | _ => .error (.shape .immediateOffset)

/-- The inside of the brackets of a memory operand, whose text is `whole`. -/
def readAddressing (whole inner : List Char) (writeback : Bool) : Except OperandError Operand :=
  match (splitWhere (· == ',') inner).map trim with
  | [] => .error (.unknownRegister "")
  | [base] => do
    return .memory (← readRegister base) none writeback
  | [base, offset] => do
    return .memory (← readRegister base) (some (← readOffset offset)) writeback
  | base :: offset :: _ => do
    let _ ← readRegister base
    let _ ← readOffset offset
    throw (.unparsable (String.ofList whole))

/-- A memory operand. -/
def readMemory (s : List Char) : Except OperandError Operand :=
  let (body, writeback) := match stripLast? '!' s with
    | some body => (trimRight body, true)
    | none => (s, false)
  match body with
  | '[' :: rest =>
    match stripLast? ']' rest with
    | some inner => readAddressing s inner writeback
    | none => .error (.unterminated .square)
  | _ => .error (.unterminated .square)

/-- A register list, behind its opening bracket.  Empty entries are skipped, but not all of them may
be empty. -/
def readRegisterList (s : List Char) : Except OperandError Operand :=
  match stripLast? '\x7d' s with
  | none => .error (.unterminated .curly)
  | some inner => do
    let names := ((splitWhere (· == ',') inner).map trim).filter fun name => !name.isEmpty
    match ← names.mapM readRegister with
    | [] => throw .emptyList
    | registers => return .registerList registers

/-- One operand, without surrounding blanks. -/
def readOperand (s : List Char) : Except OperandError Operand :=
  match s with
  | '#' :: number => (readImmediate number).map .immediate
  | '[' :: _ => readMemory s
  | '\x7b' :: rest => readRegisterList rest
  | _ =>
    match stripLast? '!' s with
    | some base => (readRegister base).map .movingBase
    | none =>
      if (Register.ofName? s).isSome then (readRegister s).map .register
      else if isIdentifier s then .ok (.label (String.ofList s))
      else .error (.unparsable (String.ofList s))

/-! ## Lists -/

/-- The operands of a list separated by commas. -/
def readOperands (s : List Char) : Except OperandError (List Operand) := do
  (← splitOperands s).mapM readOperand

end FlaglessAsm
