import FlaglessAsm.Error

/-!
# Configuration

Where a program is placed, and how instructions are padded.  The machine has no interlocks, so a
number of no-ops follows each instruction that a later one might depend on.

## What is here

* `PadPolicy`: which instructions are padded.
* `Config` and its defaults.
* `Config.validate`: configurations the assembler accepts.
-/

set_option autoImplicit false

namespace FlaglessAsm

/-- Which instructions are followed by no-ops. -/
inductive PadPolicy where
  | all
  /-- The instructions that write a register. -/
  | writes
  deriving DecidableEq

/-- The settings of the assembler. -/
structure Config where
  /-- The address of the first instruction word. -/
  textStart : Address := 0
  /-- The address of the first data word. -/
  dataStart : Address := 0
  /-- The first value of the stack and frame pointers. -/
  workspaceBase : Word := 0
  /-- How many no-ops follow a padded instruction. -/
  hazardPad : Word := 3
  padPolicy : PadPolicy := .all
  /-- Whether a conditional branch has to follow a compare. -/
  strictCompare : Bool := true
  /-- Whether the program starts by setting up the workspace. -/
  prologue : Bool := true
  deriving DecidableEq

/-- Accepts a configuration whose prologue can be encoded. -/
def Config.validate (config : Config) : Except AsmError Unit :=
  if config.prologue && 0xFF < config.workspaceBase then
    .error (.invalidConfig (.workspaceBase config.workspaceBase))
  else .ok ()

end FlaglessAsm
