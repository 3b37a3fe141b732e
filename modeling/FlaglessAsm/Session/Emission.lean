import FlaglessAsm.Expansion
import FlaglessAsm.Session.Basic

/-!
# Writing instructions

Instruction words are written one behind the other.  An instruction is followed by as many no-ops
as the configuration asks for.

## What is here

* `Session.writeWord`, `Session.writeNops`: words at the next addresses.
* `Session.locate`: the displacement of a branch, which is deferred if its label is not bound.
* `Session.emit`, `Session.emitAll`: instructions with the no-ops behind them.
-/

set_option autoImplicit false

namespace FlaglessAsm
namespace Session

/-! ## Words -/

/-- Writes an instruction word at the next address. -/
def writeWord (line : SourceLine) (word : Word) : Step Unit := do
  modify fun s => { s with text := s.text.push ⟨s.pc, word⟩ }
  match (← get).pc.next? with
  | some pc => modify fun s => { s with pc }
  | none => throw (.onLine line (.addressSpace .instruction))

/-- Writes a number of no-ops. -/
def writeNops (line : SourceLine) : Nat → Step Unit
  | 0 => pure ()
  | n + 1 => do
    writeWord line nopWord
    writeNops line n

/-! ## Branches -/

/-- The displacement of a branch to a label from the next address.  A branch to a label that is not
bound yet is deferred, with a displacement of zero for the time being. -/
def branchDisplacement (line : SourceLine) (condition : Condition) (label : String) :
    Step Int := do
  match (← get).symbols.get? label with
  | some (.code pc _) => return Instruction.displacement pc (← get).pc
  | some _ => throw (.onLine line (.operand (.notCodeLabel label)))
  | none =>
    modify fun s =>
      { s with deferred := s.deferred.push ⟨line, s.text.size, s.pc, condition, label⟩ }
    return 0

/-- An instruction with the displacement of its branch, if it is one. -/
def locate (line : SourceLine) : SymbolicInstruction → Step (Instruction Int)
  | .nop => return .nop
  | .alu op rd rn source => return .alu op rd rn source
  | .transfer access value base offset writeback =>
    return .transfer access value base offset writeback
  | .branch condition label => return .branch condition (← branchDisplacement line condition label)
  | .exchange rm => return .exchange rm

/-! ## Instructions -/

/-- Whether an instruction is followed by no-ops. -/
def isPadded (config : Config) (i : SymbolicInstruction) : Bool :=
  match config.padPolicy with
  | .all => true
  | .writes => i.writesRegister

/-- Writes an instruction and the no-ops behind it. -/
def emit (line : SourceLine) (i : SymbolicInstruction) : Step Unit := do
  let word ← onLine line ((← locate line i).encode.mapError .encoding)
  writeWord line word
  let config := (← get).config
  if isPadded config i then writeNops line config.hazardPad.toNat

/-- Writes a list of instructions. -/
def emitAll (line : SourceLine) : List SymbolicInstruction → Step Unit
  | [] => pure ()
  | i :: rest => do
    emit line i
    emitAll line rest

end Session
end FlaglessAsm
