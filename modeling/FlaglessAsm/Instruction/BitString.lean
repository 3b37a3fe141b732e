import FlaglessAsm.Instruction.Basic
import FlaglessAsm.Text.Numeral

/-!
# Words as rows of bits

An instruction word is written most significant field first and has exactly 32 bits.  A row of
fields of any other total width is an error: it means that a layout is wrong.

## What is here

* `EncodeError`: why an instruction has no word.
* `Field`, `BitString`: a field, and the bits of a row of fields.
* `BitString.toWord`: the word that 32 bits spell.
* `bitsAt`, `signedBits`, `registerAt`: the fields of a word.
-/

set_option autoImplicit false

namespace FlaglessAsm

/-! ## Errors -/

/-- Why an instruction, or a data word, cannot be encoded. -/
inductive EncodeError where
  /-- The fields do not add up to a word. -/
  | width (bits : Nat)
  /-- An immediate lies outside its field. -/
  | immediate (value : Int) (bits : Nat)
  /-- A branch target is too far away. -/
  | displacement (value : Int) (bits : Nat)
  deriving DecidableEq

open Text in
/-- The wording of an error. -/
def EncodeError.message : EncodeError → String
  | .width bits => "assembled " ++ decimal bits ++ " bits, expected 32"
  | .immediate value bits =>
    "immediate " ++ decimal value ++ " does not fit in " ++ decimal bits ++ " bits"
  | .displacement value bits =>
    "displacement " ++ decimal value ++ " does not fit in " ++ decimal bits ++ " signed bits"

/-! ## Writing fields -/

/-- The low `width` bits of `value`. -/
structure Field where
  value : Nat
  width : Nat
  deriving DecidableEq

/-- A row of bits: how many there are, and the number they spell. -/
structure BitString where
  width : Nat
  value : Nat
  deriving DecidableEq

namespace BitString

/-- No bits. -/
def empty : BitString := ⟨0, 0⟩

/-- The bits of `b` followed by those of a field, of which at most 32 count. -/
def append (b : BitString) (f : Field) : BitString :=
  let width := min f.width 32
  ⟨b.width + width, (b.value <<< width) + f.value % (1 <<< width)⟩

/-- The bits of a row of fields, most significant first. -/
def ofFields (fields : List Field) : BitString :=
  fields.foldl append empty

/-- The word that the bits spell, when there are 32 of them. -/
def toWord (b : BitString) : Except EncodeError Word :=
  if b.width = 32 then .ok (UInt32.ofNat b.value) else .error (.width b.width)

end BitString

/-! ## Reading fields -/

/-- The number spelled by `width` bits of a word, from bit `low` up. -/
def bitsAt (w : Word) (low width : Nat) : Nat :=
  (w.toNat >>> low) % (1 <<< width)

/-- The low `width` bits of a word as a two's complement number. -/
def signedBits (w : Word) (width : Nat) : Int :=
  Int.bmod (bitsAt w 0 width) (1 <<< width)

/-- The register named by the four bits of a word from bit `low` up. -/
def registerAt (w : Word) (low : Nat) : Register :=
  .ofBits (bitsAt w low 4)

end FlaglessAsm
