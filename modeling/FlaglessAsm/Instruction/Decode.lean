import FlaglessAsm.Instruction.Encode

/-!
# Decoding words

Reading an instruction word back.  Some bits of a word are not looked at, so several words can
decode to the same instruction; the encoder writes one of them.

## What is here

* `decodeArithmetic`, `decodeTransfer`: the two classes chosen by a two-bit code.
* `decode`: the instruction of a word, if it has one.
-/

set_option autoImplicit false

namespace FlaglessAsm

/-- The arithmetic instruction of a word of that class: no flags are set, the operation is known and
nothing is rotated. -/
def decodeArithmetic (w : Word) : Option (Instruction Int) :=
  if bitsAt w 20 1 ≠ 0 then none
  else
    match AluOp.ofOpcode? (bitsAt w 21 4) with
    | none => none
    | some op =>
      if bitsAt w 8 4 ≠ 0 then none
      else
        let source :=
          if bitsAt w 25 1 = 1 then Source.immediate (UInt32.ofNat (bitsAt w 0 8))
          else Source.register (registerAt w 0)
        some (.alu op (registerAt w 12) (registerAt w 16) source)

/-- The transfer of a word of that class: its mode is known. -/
def decodeTransfer (w : Word) : Option (Instruction Int) :=
  match Access.ofMode? (bitsAt w 20 3) with
  | none => none
  | some (access, writeback) =>
    let magnitude : Int := bitsAt w 0 8
    let offset := if (TransferFlags.ofWord w).up then magnitude else -magnitude
    some (.transfer access (registerAt w 12) (registerAt w 16) offset writeback)

/-- The instruction of a word. -/
def decode (w : Word) : Option (Instruction Int) :=
  if bitsAt w 28 4 ≠ 0b1110 then none
  else if w = nopWord then some .nop
  else if bitsAt w 4 24 = exchangePattern then some (.exchange (registerAt w 0))
  else if bitsAt w 24 4 = 0b1010 then some (.branch .always (signedBits w 16))
  else if bitsAt w 20 8 = 0b10110000 then
    some (.branch (.ifZero (registerAt w 16)) (signedBits w 12))
  else if bitsAt w 20 8 = 0b10110001 then
    some (.branch (.ifNonZero (registerAt w 16)) (signedBits w 12))
  else if bitsAt w 26 2 = 0b00 then decodeArithmetic w
  else if bitsAt w 26 2 = 0b01 then decodeTransfer w
  else none

end FlaglessAsm
