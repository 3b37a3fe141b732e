import FlaglessAsm.Instruction.Basic

/-!
# What instructions do

The effect of instructions on registers and memory.  Registers hold integers, the zero register
always reads zero, and there are no flags: a compare leaves its result in registers, and a
conditional branch tests one of them.

## What is here

* `Machine`: the registers and the memory.
* `Machine.read`, `Machine.write`, `Machine.store`: access to them, with what each leaves alone.
* `AluOp.apply`, `Machine.step`, `Machine.run`: the effect of operations and instructions.
* `Condition.Holds`: when a branch is taken.
-/

set_option autoImplicit false

namespace FlaglessAsm

/-- The registers and the memory of the machine. -/
structure Machine where
  registers : Register → Int
  memory : Int → Int

namespace Machine

/-! ## Registers and memory -/

/-- The value of a register. -/
def read (m : Machine) (r : Register) : Int :=
  if r = .zero then 0 else m.registers r

/-- The machine after a value is written to a register. -/
def write (m : Machine) (r : Register) (value : Int) : Machine :=
  { m with registers := fun s => if s = r then value else m.registers s }

/-- The machine after a value is written to memory. -/
def store (m : Machine) (address value : Int) : Machine :=
  { m with memory := fun a => if a = address then value else m.memory a }

theorem read_write_self (m : Machine) {r : Register} (h : r ≠ .zero) (value : Int) :
    (m.write r value).read r = value := by
  simp [read, write, h]

theorem read_write_of_ne (m : Machine) {r s : Register} (h : s ≠ r) (value : Int) :
    (m.write r value).read s = m.read s := by
  simp [read, write, h]

@[simp]
theorem memory_write (m : Machine) (r : Register) (value : Int) :
    (m.write r value).memory = m.memory := rfl

theorem memory_store_self (m : Machine) (address value : Int) :
    (m.store address value).memory address = value := by
  simp [store]

theorem memory_store_of_ne (m : Machine) {address a : Int} (h : a ≠ address) (value : Int) :
    (m.store address value).memory a = m.memory a := by
  simp [store, h]

/-- The value of a second operand. -/
def readSource (m : Machine) : Source → Int
  | .immediate value => value.toNat
  | .register r => m.read r

end Machine

/-! ## Instructions -/

/-- The result of an operation on two values.  A move ignores the first. -/
def AluOp.apply : AluOp → Int → Int → Int
  | .add, a, b => a + b
  | .sub, a, b => a - b
  | .lsl, a, b => a * (1 <<< b.toNat : Nat)
  | .slt, a, b => if a < b then 1 else 0
  | .mov, _, b => b

/-- When a branch is taken. -/
def Condition.Holds (m : Machine) : Condition → Prop
  | .always => True
  | .ifZero r => m.read r = 0
  | .ifNonZero r => m.read r ≠ 0

namespace Machine

variable {Target : Type}

/-- The machine after the base of a transfer is moved to the address of the access, if it is. -/
def moveBase (m : Machine) (base : Register) (address : Int) (writeback : Bool) : Machine :=
  if writeback then m.write base address else m

/-- The effect of an instruction on registers and memory.  Branches and jumps only choose the next
instruction. -/
def step (m : Machine) : Instruction Target → Machine
  | .alu op rd rn source => m.write rd (op.apply (m.read rn) (m.readSource source))
  | .transfer .load value base offset writeback =>
    let address := m.read base + offset
    (m.moveBase base address writeback).write value (m.memory address)
  | .transfer .store value base offset writeback =>
    let address := m.read base + offset
    (m.moveBase base address writeback).store address (m.read value)
  | .branch .. | .exchange _ | .nop => m

/-- The effect of a list of instructions. -/
def run (m : Machine) (instructions : List (Instruction Target)) : Machine :=
  instructions.foldl step m

@[simp]
theorem run_nil (m : Machine) : m.run ([] : List (Instruction Target)) = m := rfl

@[simp]
theorem run_cons (m : Machine) (i : Instruction Target) (is : List (Instruction Target)) :
    m.run (i :: is) = (m.step i).run is := rfl

theorem run_append (m : Machine) (is js : List (Instruction Target)) :
    m.run (is ++ js) = (m.run is).run js := by
  simp [run]

end Machine
end FlaglessAsm
