/-!
# Mnemonics

Each source statement that is not a label starts with a mnemonic.  Two spellings can stand for the
same operation, and operations fall into categories that the assembler treats alike.

## What is here

* `Memory`: the two memories of the machine.
* `Operation`, `Category`: what a statement asks for, and the kind of request that is.
* `Mnemonic.table`, `Mnemonic.find?`: the spellings, read without regard to ASCII case.
-/

set_option autoImplicit false

namespace FlaglessAsm

/-- The memories of the machine, each with its own address space. -/
inductive Memory where
  | instruction
  | data
  deriving DecidableEq

/-- The name of a memory in messages. -/
def Memory.name : Memory → String
  | .instruction => "instruction"
  | .data => "data"

/-- What a source statement asks for. -/
inductive Operation where
  | word
  | add
  | sub
  | mov
  | lsl
  | cmp
  | ldr
  | str
  | push
  | pop
  | ldm
  | stm
  | b
  | bge
  | ble
  | blt
  | bgt
  | bx
  | nop
  deriving DecidableEq

/-- The kinds of operation. -/
inductive Category where
  | data
  | arithmetic
  | compare
  | transfer
  | stack
  | block
  | branch
  | conditionalBranch
  | exchange
  | nop
  deriving DecidableEq

/-- The kind of an operation. -/
def Operation.category : Operation → Category
  | .word => .data
  | .add | .sub | .mov | .lsl => .arithmetic
  | .cmp => .compare
  | .ldr | .str => .transfer
  | .push | .pop => .stack
  | .ldm | .stm => .block
  | .b => .branch
  | .bge | .ble | .blt | .bgt => .conditionalBranch
  | .bx => .exchange
  | .nop => .nop

/-- The memory that a category of statements writes. -/
def Category.memory : Category → Memory
  | .data => .data
  | _ => .instruction

/-- A spelling of an operation. -/
structure Mnemonic where
  /-- The spelling in lower case. -/
  spelling : String
  operation : Operation
  deriving DecidableEq

namespace Mnemonic

/-- Every mnemonic. -/
def table : List Mnemonic :=
  [ ⟨".word", .word⟩, ⟨"add", .add⟩, ⟨"sub", .sub⟩, ⟨"mov", .mov⟩, ⟨"lsl", .lsl⟩, ⟨"cmp", .cmp⟩,
    ⟨"ldr", .ldr⟩, ⟨"str", .str⟩, ⟨"push", .push⟩, ⟨"pop", .pop⟩, ⟨"ldm", .ldm⟩, ⟨"ldmia", .ldm⟩,
    ⟨"stm", .stm⟩, ⟨"stmia", .stm⟩, ⟨"b", .b⟩, ⟨"bge", .bge⟩, ⟨"ble", .ble⟩, ⟨"blt", .blt⟩,
    ⟨"bgt", .bgt⟩, ⟨"bx", .bx⟩, ⟨"nop", .nop⟩ ]

/-- The mnemonic with a given spelling, in either ASCII case. -/
def find? (spelling : List Char) : Option Mnemonic :=
  table.find? fun m => m.spelling.toList == spelling.map Char.toLower

end Mnemonic
end FlaglessAsm
