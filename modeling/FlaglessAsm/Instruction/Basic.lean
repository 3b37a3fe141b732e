import FlaglessAsm.Register
import FlaglessAsm.Word

/-!
# Machine instructions

The machine executes five kinds of instruction.  The type is parametrised by how a branch names its
target: by a label before the program is laid out, by a displacement once it is.

## What is here

* `AluOp`, `Access`, `Condition`, `Source`: the parts of an instruction and their codes.
* `Instruction`: the instructions, and which of them write a register.
-/

set_option autoImplicit false

namespace FlaglessAsm

/-! ## Parts of an instruction -/

/-- The operations of the arithmetic unit. -/
inductive AluOp where
  | add
  | sub
  /-- Shift left by a register. -/
  | lsl
  /-- Set if less than: one or zero. -/
  | slt
  | mov
  deriving DecidableEq

namespace AluOp

/-- The four-bit code of an operation. -/
def opcode : AluOp → Nat
  | .add => 0b0100
  | .sub => 0b0101
  | .lsl => 0b0110
  | .slt => 0b1010
  | .mov => 0b1101

/-- The operation with a given code. -/
def ofOpcode? : Nat → Option AluOp
  | 0b0100 => some .add
  | 0b0101 => some .sub
  | 0b0110 => some .lsl
  | 0b1010 => some .slt
  | 0b1101 => some .mov
  | _ => none

/-- The name of an operation. -/
def name : AluOp → String
  | .add => "add"
  | .sub => "sub"
  | .lsl => "lsl"
  | .slt => "slt"
  | .mov => "mov"

theorem ofOpcode?_eq_some_iff {n : Nat} {op : AluOp} : ofOpcode? n = some op ↔ n = op.opcode := by
  constructor
  · intro h
    unfold ofOpcode? at h
    split at h <;> simp_all [opcode] <;> subst h <;> rfl
  · rintro rfl
    cases op <;> rfl

end AluOp

/-- The direction of a memory access. -/
inductive Access where
  | load
  | store
  deriving DecidableEq

namespace Access

/-- The three-bit mode of a memory access, with or without writing the base register back. -/
def mode : Access → Bool → Nat
  | .load, false => 0b001
  | .load, true => 0b011
  | .store, true => 0b000
  | .store, false => 0b010

/-- The access, and whether it writes the base register back, of a given mode. -/
def ofMode? : Nat → Option (Access × Bool)
  | 0b001 => some (.load, false)
  | 0b011 => some (.load, true)
  | 0b000 => some (.store, true)
  | 0b010 => some (.store, false)
  | _ => none

theorem ofMode?_mode (a : Access) (writeback : Bool) :
    ofMode? (a.mode writeback) = some (a, writeback) := by
  cases a <;> cases writeback <;> rfl

end Access

/-- What a branch tests before it jumps. -/
inductive Condition where
  | always
  /-- Taken when the register reads zero. -/
  | ifZero (r : Register)
  /-- Taken when the register does not read zero. -/
  | ifNonZero (r : Register)
  deriving DecidableEq

namespace Condition

/-- The width of the displacement of a branch. -/
def displacementBits : Condition → Nat
  | .always => 16
  | _ => 12

/-- Whether a branch can fall through. -/
def isConditional : Condition → Bool
  | .always => false
  | _ => true

end Condition

/-- The second operand of an arithmetic instruction. -/
inductive Source where
  | immediate (value : UInt32)
  | register (r : Register)
  deriving DecidableEq

/-! ## Instructions -/

/-- A machine instruction whose branches name their target by a `Target`. -/
inductive Instruction (Target : Type) where
  | nop
  | alu (op : AluOp) (rd rn : Register) (source : Source)
  /-- A load into, or a store of, `value` at `base + offset`. -/
  | transfer (access : Access) (value base : Register) (offset : Int) (writeback : Bool)
  | branch (condition : Condition) (target : Target)
  /-- A jump to the address in a register. -/
  | exchange (rm : Register)
  deriving DecidableEq

namespace Instruction

/-- Whether the instruction writes a general register when it retires. -/
def writesRegister {Target : Type} : Instruction Target → Bool
  | .alu .. => true
  | .transfer access .. => access == .load
  | .branch .. | .exchange _ | .nop => false

/-- The distance from a branch at `pc` to `target`, in words.  The machine has fetched two words by
the time a branch resolves. -/
def displacement (target pc : Address) : Int :=
  (target.toNat : Int) - pc.toNat - 2

/-- The address that a branch at `pc` reaches with a displacement. -/
def destination (pc : Address) (displacement : Int) : Int :=
  pc.toNat + displacement + 2

theorem destination_displacement (target pc : Address) :
    destination pc (displacement target pc) = target.toNat := by
  unfold destination displacement
  omega

end Instruction
end FlaglessAsm
