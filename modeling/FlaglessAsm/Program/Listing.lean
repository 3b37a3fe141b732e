import FlaglessAsm.Instruction.Disassembly
import FlaglessAsm.Program.Basic

/-!
# Listings of a program

## What is here

* `Program.listing`: the data words of a program, then its instruction words with their labels.
-/

set_option autoImplicit false

namespace FlaglessAsm
namespace Program

open Text

/-- A data word of a listing. -/
def dataRow (address : Address) (high low : Word) : String :=
  "  d" ++ padRight 5 (decimal address.toNat) ++ " " ++ hexPadded 8 high.toNat ++ " "
    ++ hexPadded 8 low.toNat ++ "\n"

/-- An instruction word of a listing. -/
def instructionRow (pc : Address) (word : Word) : String :=
  "  " ++ padRight 6 (decimal pc.toNat) ++ " " ++ hexPadded 8 word.toNat ++ "  "
    ++ disassemble pc word ++ "\n"

/-- The data words of a program, then its instruction words with the labels in front of them. -/
def listing (p : Program) : String :=
  let labels := p.symbols.codeLabels
  let data := p.data.foldl (fun text (address, high, low) => text ++ dataRow address high low) ""
  p.instructions.foldl (fun text (pc, word) =>
    let names := (labels.getD pc []).foldl (fun text name => text ++ name ++ ":\n") text
    names ++ instructionRow pc word) data

end Program
end FlaglessAsm
