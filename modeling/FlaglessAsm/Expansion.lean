import FlaglessAsm.Instruction.Encode
import FlaglessAsm.SymbolTable

/-!
# Expanding source instructions

Each source instruction stands for one or more machine instructions.  A negative immediate turns an
addition into a subtraction; immediates of shifts and compares go through the scratch register; a
compare leaves two order tests behind for the conditional branches; register lists become one
transfer per register; and moving a base register is an instruction of its own.

## What is here

* `moveBy`: moving a register by a number.
* One function per form: `expandSum`, `expandMove`, `expandShift`, `expandCompare`,
  `expandTransfer`, `expandPush`, `expandPop`, `expandBlock`, `expandBranch`.
* `expand`: the machine instructions of a source instruction.
-/

set_option autoImplicit false

namespace FlaglessAsm

/-- An instruction whose branches name labels. -/
abbrev SymbolicInstruction := Instruction String

/-! ## Parts -/

/-- The distance between registers that a list of them is stored at. -/
def slotSize : Int := 4

/-- The error for operands of another form than the one asked for. -/
def Cause.shape (expected : Expectation) : Cause :=
  .operand (.shape expected)

/-- An immediate as the second operand of an arithmetic instruction. -/
def immediateSource (value : Int) : Except Cause Source :=
  match Word.ofInt? value with
  | some word => .ok (.immediate word)
  | none => .error (.encoding (.immediate value immediateBits))

/-- A register or an immediate as the second operand of an arithmetic instruction. -/
def sourceOf : Operand → Except Cause Source
  | .register r => .ok (.register r)
  | .immediate value => immediateSource value
  | _ => .error (.shape .source)

/-- A copy of a second operand into a register. -/
def moveTo (rd : Register) (source : Source) : SymbolicInstruction :=
  .alu .mov rd .zero source

/-- Moves a register by a number, which is taken for the largest word if it is larger than that. -/
def moveBy (base : Register) (delta : Int) : SymbolicInstruction :=
  .alu (if delta < 0 then .sub else .add) base base
    (.immediate ((Word.ofNat? delta.natAbs).getD 0xFFFFFFFF))

/-! ## Arithmetic and compares -/

/-- The number with the opposite sign, as far as it is a 64-bit number. -/
def negated (value : Int) : Int :=
  min (-value) Int64.maxValue.toInt

/-- `rd := rn + source`, or `rd := rn - source`. -/
def sum (op opposite : AluOp) (rd rn : Register) (source : Operand) :
    Except Cause (List SymbolicInstruction) :=
  match source with
  | .immediate value =>
    if value < 0 then
      (immediateSource (negated value)).map fun s => [.alu opposite rd rn s]
    else (immediateSource value).map fun s => [.alu op rd rn s]
  | _ => (sourceOf source).map fun s => [.alu op rd rn s]

/-- An addition or a subtraction, where the first source may be left out. -/
def expandSum (op opposite : AluOp) : List Operand → Except Cause (List SymbolicInstruction)
  | [.register rd, .register rn, source] => sum op opposite rd rn source
  | [.register rd, source] => sum op opposite rd rd source
  | _ => .error (.shape .destinationAndSources)

/-- A move. -/
def expandMove : List Operand → Except Cause (List SymbolicInstruction)
  | [.register rd, source] => (sourceOf source).map fun s => [moveTo rd s]
  | _ => .error (.shape .destinationAndSource)

/-- A shift.  The machine only shifts by a register. -/
def expandShift : List Operand → Except Cause (List SymbolicInstruction)
  | [.register rd, .register rn, .register rm] => .ok [.alu .lsl rd rn (.register rm)]
  | [.register rd, .register rn, .immediate amount] =>
    (immediateSource amount).map fun s =>
      [moveTo .scratch s, .alu .lsl rd rn (.register .scratch)]
  | _ => .error (.shape .destinationAndSources)

/-- The two order tests of a compare. -/
def orderTests (a b : Register) : List SymbolicInstruction :=
  [.alu .slt .lessThan a (.register b), .alu .slt .greaterThan b (.register a)]

/-- A compare. -/
def expandCompare : List Operand → Except Cause (List SymbolicInstruction)
  | [.register a, .register b] => .ok (orderTests a b)
  | [.register a, .immediate value] =>
    (immediateSource value).map fun s => moveTo .scratch s :: orderTests a .scratch
  | _ => .error (.shape .comparands)

/-! ## Transfers -/

/-- The address of a data label. -/
def dataAddress (symbols : SymbolTable) (label : String) : Except Cause Address :=
  match symbols.data? label with
  | some address => .ok address
  | none =>
    if symbols.isDeclared label then .error (.operand (.notDataLabel label))
    else .error (.unresolved label)

/-- A transfer from or to a data label.  Its address is the offset from the zero register; loading a
pointer label is a move of the address it refers to. -/
def expandLabelTransfer (symbols : SymbolTable) (access : Access) (value : Register)
    (label : String) : Except Cause (List SymbolicInstruction) :=
  match symbols.pointer? label, access with
  | some target, .load =>
    (dataAddress symbols target).map fun address => [moveTo value (.immediate address)]
  | some _, .store => .error (.operand (.notDataLabel label))
  | none, _ =>
    (dataAddress symbols label).map fun address =>
      [.transfer access value .zero address.toNat false]

/-- A load or store of one register.  A base that is moved, before or after the access, is moved by
an instruction of its own. -/
def expandTransfer (symbols : SymbolTable) (access : Access) :
    List Operand → Except Cause (List SymbolicInstruction)
  | .register value :: address =>
    match address with
    | [.memory base offset false] => .ok [.transfer access value base (offset.getD 0) false]
    | [.memory base offset true] =>
      .ok [moveBy base (offset.getD 0), .transfer access value base 0 true]
    | [.memory base none false, .immediate step] =>
      .ok [.transfer access value base 0 true, moveBy base step]
    | [.label name] => expandLabelTransfer symbols access value name
    | _ => .error (.shape .memory)
  | _ => .error (.shape .valueAndMemory)

/-- One transfer per register, at increasing offsets from a base. -/
def blockTransfers (access : Access) (base : Register) (registers : List Register) :
    List SymbolicInstruction :=
  registers.zipIdx.map fun (r, k) => .transfer access r base (slotSize * k) false

/-- Stores the registers of a list below the stack pointer, the last one highest, and moves the
stack pointer down. -/
def expandPush : List Operand → Except Cause (List SymbolicInstruction)
  | [.registerList registers] =>
    .ok (registers.reverse.zipIdx.map (fun (r, k) =>
        Instruction.transfer .store r .sp (-slotSize * (k + 1)) false)
      ++ [moveBy .sp (-slotSize * registers.length)])
  | _ => .error (.shape .registerList)

/-- Loads the registers of a list from the stack pointer up and moves the stack pointer up. -/
def expandPop : List Operand → Except Cause (List SymbolicInstruction)
  | [.registerList registers] =>
    .ok (blockTransfers .load .sp registers ++ [moveBy .sp (slotSize * registers.length)])
  | _ => .error (.shape .registerList)

/-- The base of a block transfer, and whether it is moved. -/
def blockBase? : Operand → Option (Register × Bool)
  | .register base => some (base, false)
  | .movingBase base => some (base, true)
  | _ => none

/-- Transfers the registers of a list from a base up, and moves the base if it is to be moved. -/
def expandBlock (access : Access) : List Operand → Except Cause (List SymbolicInstruction)
  | [] => .error (.shape .baseAndRegisterList)
  | first :: rest =>
    match blockBase? first, rest with
    | none, _ => .error (.shape .baseAndRegisterList)
    | some (base, moved), [.registerList registers] =>
      .ok (blockTransfers access base registers
        ++ if moved then [moveBy base (slotSize * registers.length)] else [])
    | some _, _ => .error (.shape .registerList)

/-! ## Branches -/

/-- A branch to a label. -/
def expandBranch (condition : Condition) : List Operand → Except Cause (List SymbolicInstruction)
  | [.label target] => .ok [.branch condition target]
  | _ => .error (.shape .label)

/-! ## All instructions -/

/-- The machine instructions of a source instruction. -/
def expand (symbols : SymbolTable) (operation : Operation) (operands : List Operand) :
    Except Cause (List SymbolicInstruction) :=
  match operation with
  | .add => expandSum .add .sub operands
  | .sub => expandSum .sub .add operands
  | .mov => expandMove operands
  | .lsl => expandShift operands
  | .cmp => expandCompare operands
  | .ldr => expandTransfer symbols .load operands
  | .str => expandTransfer symbols .store operands
  | .push => expandPush operands
  | .pop => expandPop operands
  | .ldm => expandBlock .load operands
  | .stm => expandBlock .store operands
  | .b => expandBranch .always operands
  | .bge => expandBranch (.ifZero .lessThan) operands
  | .ble => expandBranch (.ifZero .greaterThan) operands
  | .blt => expandBranch (.ifNonZero .lessThan) operands
  | .bgt => expandBranch (.ifNonZero .greaterThan) operands
  | .bx =>
    match operands with
    | [.register r] => .ok [.exchange r]
    | _ => .error (.shape .register)
  | .nop =>
    match operands with
    | [] => .ok [.nop]
    | _ => .error (.shape .nothing)
  | .word => .error (.shape .instruction)

end FlaglessAsm
