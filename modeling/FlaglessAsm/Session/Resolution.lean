import FlaglessAsm.Program.Basic
import FlaglessAsm.Session.Placement

/-!
# Resolving deferred branches

Once the labels of a session are bound, the branches that were written without a displacement get
theirs.

## What is here

* `Session.patch`, `Session.resolve`: deferred branches.
* `Session.program`: the program of a session.
* `assemble`: the program of a list of source lines.
-/

set_option autoImplicit false

namespace FlaglessAsm
namespace Session

/-! ## Deferred branches -/

/-- Overwrites the word of a deferred branch. -/
def patch (b : DeferredBranch) : Step Unit := do
  match (← get).symbols.get? b.label with
  | some (.code pc _) =>
    let branch := Instruction.branch b.condition (Instruction.displacement pc b.pc)
    let word ← onLine b.line (branch.encode.mapError .encoding)
    modify fun s => { s with text := s.text.modify b.position ({ · with word }) }
  | some _ => throw (.onLine b.line (.operand (.notCodeLabel b.label)))
  | none => throw (.onLine b.line (.unresolved b.label))

/-- Overwrites the words of a list of deferred branches. -/
def patchAll : List DeferredBranch → Step Unit
  | [] => pure ()
  | b :: rest => do
    patch b
    patchAll rest

/-- Patches every deferred branch, and counts them.  None is deferred afterwards, even if one of
them could not be patched. -/
def resolve : Step Nat := do
  let deferred := (← get).deferred
  modify fun s => { s with deferred := #[] }
  patchAll deferred.toList
  return deferred.size

/-! ## Programs -/

/-- The program of a session: a reset, the data words and the instruction words. -/
def program (s : Session) : Program where
  words := #[.pcReset] ++ s.data.map (fun c => .dataWrite c.address c.high c.low)
    ++ s.text.map (fun c => .instructionWrite c.address c.word)
  symbols := s.symbols
  dataBoundary := s.dataBoundary

/-- Feeds source lines to a session and resolves it. -/
def build (lines : List SourceLine) : Step Unit := do
  feed lines
  let _ ← resolve

end Session

/-- The program of a list of source lines. -/
def assemble (config : Config) (lines : List SourceLine) : Except AsmError Program :=
  match Session.start config with
  | .error e => .error e
  | .ok session =>
    match (Session.build lines).run session with
    | .ok () session => .ok session.program
    | .error e _ => .error e

end FlaglessAsm
