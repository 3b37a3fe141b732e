import FlaglessAsm.Register

/-!
# Operands

What can stand behind a mnemonic, and the reasons why text there is refused.

## What is here

* `Operand`: the forms of an operand.
* `Bracket`: the two kinds of bracket, around memory operands and around register lists.
* `Expectation`: the operand forms a mnemonic asks for.
* `OperandError` and its wording.
-/

set_option autoImplicit false

namespace FlaglessAsm

/-! ## Forms -/

/-- An operand of an instruction. -/
inductive Operand where
  | register (r : Register)
  /-- `base!`: the base of a block transfer that is moved past the block. -/
  | movingBase (r : Register)
  | immediate (value : Int)
  /-- `[base]` or `[base, #offset]`, with a `!` behind it if the base is moved first. -/
  | memory (base : Register) (offset : Option Int) (writeback : Bool)
  | registerList (registers : List Register)
  | label (name : String)
  deriving DecidableEq

/-- The kinds of bracket. -/
inductive Bracket where
  | square
  | curly
  deriving DecidableEq

namespace Bracket

/-- The character that opens a bracket. -/
def opening : Bracket → Char
  | .square => '['
  | .curly => '\x7b'

/-- The character that closes a bracket. -/
def closing : Bracket → Char
  | .square => ']'
  | .curly => '\x7d'

/-- The bracket that a character opens. -/
def ofOpening? (c : Char) : Option Bracket :=
  if c = opening .square then some .square
  else if c = opening .curly then some .curly
  else none

/-- The bracket that a character closes. -/
def ofClosing? (c : Char) : Option Bracket :=
  if c = closing .square then some .square
  else if c = closing .curly then some .curly
  else none

end Bracket

/-! ## Errors -/

/-- The operand forms that are asked for. -/
inductive Expectation where
  | immediateOffset
  | source
  | destinationAndSources
  | destinationAndSource
  | comparands
  | valueAndMemory
  | memory
  | registerList
  | baseAndRegisterList
  | label
  | register
  | nothing
  | instruction
  deriving DecidableEq

/-- The wording of an expectation. -/
def Expectation.description : Expectation → String
  | .immediateOffset => "immediate offset `#n`"
  | .source => "register or #immediate"
  | .destinationAndSources => "rd, rn, register or #immediate"
  | .destinationAndSource => "rd, register or #immediate"
  | .comparands => "ra, register or #immediate"
  | .valueAndMemory => "rd, memory operand"
  | .memory => "[base, #offset], [base, #offset]!, [base], #offset or a data label"
  | .registerList => "\x7bregister list\x7d"
  | .baseAndRegisterList => "base[!], \x7bregister list\x7d"
  | .label => "label"
  | .register => "register"
  | .nothing => "no operands"
  | .instruction => "instruction, not a data directive"

/-- Why an operand, or a list of operands, is refused. -/
inductive OperandError where
  | unknownRegister (text : String)
  | reservedRegister (r : Register)
  | badNumber (text : String)
  | unterminated (bracket : Bracket)
  | emptyList
  | unparsable (text : String)
  | shape (expected : Expectation)
  | notCodeLabel (name : String)
  | notDataLabel (name : String)
  deriving DecidableEq

/-- The wording of an error. -/
def OperandError.message : OperandError → String
  | .unknownRegister text => "unknown register `" ++ text ++ "`"
  | .reservedRegister r => "register `" ++ r.name ++ "` is reserved by the assembler"
  | .badNumber text => "bad number `" ++ text ++ "`"
  | .unterminated bracket => "unterminated `" ++ String.singleton bracket.opening ++ "`"
  | .emptyList => "empty register list"
  | .unparsable text => "cannot parse operand `" ++ text ++ "`"
  | .shape expected => "expected " ++ expected.description
  | .notCodeLabel name => "`" ++ name ++ "` is not a code label"
  | .notDataLabel name => "`" ++ name ++ "` is not a data label"

end FlaglessAsm
