import FlaglessAsm.Session.Emission

/-!
# Writing statements

Statements are written in order.  Data words and instruction words go to memories of their own, so
data may stand anywhere between instructions.

## What is here

* `Session.bindLabels`: the labels in front of a statement.
* `Session.trackCompare`: conditional branches only behind a compare.
* `Session.place`, `Session.placeAll`: statements.
* `Session.feed`: source lines.
-/

set_option autoImplicit false

namespace FlaglessAsm
namespace Session

/-! ## Labels, compares and data -/

/-- Binds the code labels in front of a statement to the next address. -/
def bindLabels (statement : Nat) : Step Unit :=
  modify fun s => { s with symbols := s.symbols.bindCode statement s.pc s.text.size }

/-- Keeps track of the last compare, and refuses a conditional branch that has none. -/
def trackCompare (line : SourceLine) (operation : Operation) : Step Unit := do
  match operation.category with
  | .compare => modify fun s => { s with afterCompare := true }
  | .conditionalBranch =>
    if (← get).config.strictCompare && !(← get).afterCompare then
      throw (.onLine line .branchWithoutCompare)
  | _ => modify fun s => { s with afterCompare := false }

/-- Writes a data word at the next address. -/
def placeData (line : SourceLine) (value : Int) : Step Unit := do
  let (high, low) ← onLine line ((splitData value).mapError .encoding)
  modify fun s => { s with data := s.data.push ⟨s.dataAddress, high, low⟩ }
  match (← get).dataAddress.next? with
  | some dataAddress => modify fun s => { s with dataAddress }
  | none => throw (.onLine line (.addressSpace .data))

/-! ## Statements -/

/-- Writes what a statement stands for. -/
def place (s : SourceStatement) : Step Unit := do
  match s.statement with
  | .label _ => modify fun s => { s with afterCompare := false }
  | .word operand =>
    modify fun s => { s with afterCompare := false }
    match operand with
    | .value value => placeData s.line value
    | .symbol name => modify fun s => { s with dataBoundary := s.dataBoundary <|> some name }
  | .instruction mnemonic operands =>
    trackCompare s.line mnemonic.operation
    let instructions ← onLine s.line (expand (← get).symbols mnemonic.operation operands)
    emitAll s.line instructions

/-- Writes a list of statements from statement `index` on.  Labels at the end are bound behind the
last word. -/
def placeAll (index : Nat) : List SourceStatement → Step Unit
  | [] => bindLabels index
  | s :: rest => do
    bindLabels index
    place s
    placeAll (index + 1) rest

/-! ## Source lines -/

/-- The instructions that set up the workspace. -/
def prologue (config : Config) : List SymbolicInstruction :=
  [ moveTo .sp (.immediate config.workspaceBase), moveTo .fp (.immediate config.workspaceBase),
    moveTo .lr (.immediate 0) ]

/-- The line that errors in the prologue are blamed on. -/
def prologueLine : SourceLine := ⟨0, "<prologue>"⟩

/-- Feeds source lines to a session.  The labels of earlier lines are forgotten; data addresses,
instruction addresses and deferred branches go on. -/
def feed (lines : List SourceLine) : Step Unit := do
  let statements ← lift (SourceStatement.readAll lines)
  let config := (← get).config
  let symbols ← lift (SymbolTable.ofStatements statements config.dataStart)
  modify fun s => { s with symbols }
  if config.prologue then emitAll prologueLine (prologue config)
  placeAll 0 statements

end Session
end FlaglessAsm
