import FlaglessAsm.Image.Basic
import FlaglessAsm.Mnemonic

/-!
# Sections

The written addresses of a memory fall into runs of consecutive addresses.

## What is here

* `runs`: the maximal runs of an increasing list of addresses.
* `Section`, `Image.sections`: the runs of both memories, with names.
-/

set_option autoImplicit false

namespace FlaglessAsm

open Text

/-- A range of numbers, of which `stop` is the first one behind it. -/
structure Run where
  start : Nat
  stop : Nat
  deriving DecidableEq

/-- Puts an address in front of runs: it extends a run that starts just behind it. -/
def extendRuns (address : Nat) : List Run → List Run
  | [] => [⟨address, address + 1⟩]
  | run :: rest =>
    if address + 1 = run.start then ⟨address, run.stop⟩ :: rest
    else ⟨address, address + 1⟩ :: run :: rest

/-- The maximal runs of an increasing list of addresses. -/
def runs (addresses : List Address) : List Run :=
  (addresses.map UInt32.toNat).foldr extendRuns []

/-- A run of written addresses, numbered within its memory. -/
structure Section where
  memory : Memory
  number : Nat
  range : Run
  deriving DecidableEq

namespace Section

/-- The kind of a section. -/
def kind (s : Section) : String :=
  match s.memory with
  | .instruction => "text"
  | .data => "data"

/-- The name of a section. -/
def name (s : Section) : String :=
  s.kind ++ decimal s.number

/-- The sections of a memory with given written addresses. -/
def ofAddresses (memory : Memory) (addresses : List Address) : List Section :=
  (runs addresses).zipIdx.map fun (range, number) => ⟨memory, number, range⟩

end Section

/-- The sections of an image, those of the instruction memory first. -/
def Image.sections (img : Image) : List Section :=
  Section.ofAddresses .instruction img.instructions.keys
    ++ Section.ofAddresses .data img.data.keys

end FlaglessAsm
