import FlaglessAsm.Instruction.Decode

/-!
# Writing instructions as text

Listings show each word as an instruction.  A branch is shown either by its displacement or, when
its address is known, by the address it reaches.

## What is here

* `Instruction.render`: an instruction on its own.
* `Instruction.renderAt`: an instruction at an address.
* `disassemble`: any word at an address.
-/

set_option autoImplicit false

namespace FlaglessAsm
namespace Instruction

open Text

/-! ## Parts -/

/-- The second operand of an arithmetic instruction. -/
def renderSource : Source → String
  | .immediate v => "#" ++ hex v.toNat
  | .register r => r.name

/-- The name of a memory access. -/
def renderAccess : Access → String
  | .load => "ldr"
  | .store => "str"

/-- A memory operand; an offset of zero is left out. -/
def renderMemory (base : Register) (offset : Int) (writeback : Bool) : String :=
  let inner := if offset = 0 then base.name else base.name ++ ", #" ++ decimal offset
  "[" ++ inner ++ "]" ++ (if writeback then "!" else "")

/-- A branch with a condition and the text of its target. -/
def renderBranch (condition : Condition) (target : String) : String :=
  match condition with
  | .always => "b " ++ target
  | .ifZero r => "bz " ++ r.name ++ ", " ++ target
  | .ifNonZero r => "bnz " ++ r.name ++ ", " ++ target

/-- A displacement, always with its sign. -/
def renderDisplacement (d : Int) : String :=
  if 0 ≤ d then "+" ++ decimal d else decimal d

/-- An address in hexadecimal; one below zero is written as a 64-bit two's complement number. -/
def renderAddress (a : Int) : String :=
  hex (a % UInt64.size).toNat

/-! ## Instructions -/

/-- An instruction whose branches show `target`. -/
def renderWith (target : Int → String) : Instruction Int → String
  | .nop => "nop"
  | .alu .mov rd _ source => "mov " ++ rd.name ++ ", " ++ renderSource source
  | .alu op rd rn source =>
    op.name ++ " " ++ rd.name ++ ", " ++ rn.name ++ ", " ++ renderSource source
  | .transfer access value base offset writeback =>
    renderAccess access ++ " " ++ value.name ++ ", " ++ renderMemory base offset writeback
  | .branch condition d => renderBranch condition (target d)
  | .exchange rm => "bx " ++ rm.name

/-- An instruction with branches shown by their displacement. -/
def render (i : Instruction Int) : String :=
  i.renderWith renderDisplacement

/-- An instruction at `pc`, with branches shown by the address they reach. -/
def renderAt (pc : Address) (i : Instruction Int) : String :=
  i.renderWith fun d => renderAddress (destination pc d)

end Instruction

/-- The text of a word at `pc`: its instruction, or the word itself if it has none. -/
def disassemble (pc : Address) (w : Word) : String :=
  match decode w with
  | some i => i.renderAt pc
  | none => ".word " ++ Text.hexPadded 8 w.toNat

end FlaglessAsm
