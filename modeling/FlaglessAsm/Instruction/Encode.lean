import FlaglessAsm.Instruction.BitString

/-!
# Encoding instructions

Every instruction with operands in range has a word.  The layouts below give the fields of each
kind of instruction, most significant first; all start with the condition field of an unconditional
instruction.

## What is here

* `nopWord`: the word that does nothing.
* `Instruction.check`, `Instruction.fields`, `Instruction.encode`: range checks, layout and word.
* `splitData`: the two halves of a data word.
-/

set_option autoImplicit false

namespace FlaglessAsm

/-! ## Fixed patterns -/

/-- Moves the zero register to itself. -/
def nopWord : Word := 0xE1A00000

/-- The condition field of an instruction that is always executed. -/
def executeAlways : Field := ⟨0b1110, 4⟩

/-- The bits of a jump to a register between the condition and the register. -/
def exchangePattern : Nat := 0x12FFF1

/-- The width of immediates and of the magnitude of offsets. -/
def immediateBits : Nat := 8

/-- The control bits of a transfer.  The assembler always sets the first two; the third follows the
sign of the offset. -/
structure TransferFlags where
  /-- The offset is an immediate. -/
  immediate : Bool
  /-- The offset applies before the access. -/
  preIndex : Bool
  /-- The offset is added to the base. -/
  up : Bool
  deriving DecidableEq

namespace TransferFlags

/-- The flags as a field of three bits. -/
def bits (flags : TransferFlags) : Nat :=
  4 * flags.immediate.toNat + 2 * flags.preIndex.toNat + flags.up.toNat

/-- The flags of a word that holds a transfer. -/
def ofWord (w : Word) : TransferFlags :=
  ⟨bitsAt w 25 1 == 1, bitsAt w 24 1 == 1, bitsAt w 23 1 == 1⟩

/-- The flags that the assembler writes for an offset. -/
def ofOffset (offset : Int) : TransferFlags :=
  ⟨true, true, decide (0 ≤ offset)⟩

end TransferFlags

namespace Instruction

/-! ## Range checks -/

/-- Fails if an operand does not fit its field. -/
def check : Instruction Int → Except EncodeError Unit
  | .alu _ _ _ (.immediate v) =>
    if fitsUnsigned immediateBits v.toNat then .ok ()
    else .error (.immediate v.toNat immediateBits)
  | .transfer _ _ _ offset _ =>
    if fitsUnsigned immediateBits offset.natAbs then .ok ()
    else .error (.immediate offset immediateBits)
  | .branch condition displacement =>
    let bits := condition.displacementBits
    if fitsSigned bits displacement then .ok () else .error (.displacement displacement bits)
  | .alu _ _ _ (.register _) | .exchange _ | .nop => .ok ()

/-! ## Layout -/

/-- A register as a field. -/
def registerField (r : Register) : Field :=
  ⟨r.code.val, 4⟩

/-- A number in two's complement as a field. -/
def signedField (value : Int) (width : Nat) : Field :=
  ⟨(value % (1 <<< width : Nat)).toNat, width⟩

/-- The field that tells an immediate from a register. -/
def sourceKindField : Source → Field
  | .immediate _ => ⟨1, 1⟩
  | .register _ => ⟨0, 1⟩

/-- The fields of the second operand of an arithmetic instruction, eight bits in all. -/
def sourceFields : Source → List Field
  | .immediate v => [⟨v.toNat, immediateBits⟩]
  | .register r => [⟨0, 4⟩, registerField r]

/-- The fields of an instruction, most significant first. -/
def fields : Instruction Int → List Field
  | .nop => [⟨nopWord.toNat, 32⟩]
  | .alu op rd rn source =>
    [executeAlways, ⟨0b00, 2⟩, sourceKindField source, ⟨op.opcode, 4⟩, ⟨0, 1⟩, registerField rn,
      registerField rd, ⟨0, 4⟩] ++ sourceFields source
  | .transfer access value base offset writeback =>
    [executeAlways, ⟨0b01, 2⟩, ⟨(TransferFlags.ofOffset offset).bits, 3⟩,
      ⟨access.mode writeback, 3⟩, registerField base, registerField value, ⟨0, 4⟩,
      ⟨offset.natAbs, immediateBits⟩]
  | .branch .always displacement =>
    [executeAlways, ⟨0b1010, 4⟩, ⟨0, 4⟩, ⟨0, 4⟩, signedField displacement 16]
  | .branch (.ifZero r) displacement =>
    [executeAlways, ⟨0b10110000, 8⟩, registerField r, ⟨0, 4⟩, signedField displacement 12]
  | .branch (.ifNonZero r) displacement =>
    [executeAlways, ⟨0b10110001, 8⟩, registerField r, ⟨0, 4⟩, signedField displacement 12]
  | .exchange rm => [executeAlways, ⟨exchangePattern, 24⟩, registerField rm]

/-- The word of an instruction whose operands are in range. -/
def encode (i : Instruction Int) : Except EncodeError Word :=
  match i.check with
  | .ok () => (BitString.ofFields i.fields).toWord
  | .error e => .error e

end Instruction

/-! ## Data words -/

/-- The high and low halves of a 64-bit data word.  Negative numbers are written in two's
complement; a number outside both 64-bit ranges is reported as the nearest signed number. -/
def splitData (value : Int) : Except EncodeError (Word × Word) :=
  if Int64.minValue.toInt ≤ value ∧ value < UInt64.size then
    let bits := (value % UInt64.size).toNat
    .ok (UInt32.ofNat (bits / UInt32.size), UInt32.ofNat (bits % UInt32.size))
  else
    .error (.immediate (max Int64.minValue.toInt (min value Int64.maxValue.toInt)) 64)

end FlaglessAsm
