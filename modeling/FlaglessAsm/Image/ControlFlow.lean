import FlaglessAsm.Image.Basic
import FlaglessAsm.Instruction.Disassembly

/-!
# Control transfers

Every branch and every jump to a register in an image is an edge.  The addresses that branches reach
get names, and so does the lowest instruction address.

## What is here

* `Edge`, `Image.edges`: the control transfers of an image, by increasing address.
* `Image.labels`: names for the lowest address and the targets.
-/

set_option autoImplicit false

namespace FlaglessAsm

open Text

/-- The kinds of control transfer. -/
inductive EdgeKind where
  | branch
  | conditionalBranch
  /-- The target is in a register. -/
  | indirect
  deriving DecidableEq

/-- The name of a kind of control transfer. -/
def EdgeKind.name : EdgeKind → String
  | .branch => "branch"
  | .conditionalBranch => "cond_branch"
  | .indirect => "indirect"

/-- A control transfer. -/
structure Edge where
  origin : Address
  /-- The address reached, if it is known and lies in the address space. -/
  target : Option Address
  kind : EdgeKind
  deriving DecidableEq

/-- The control transfer of a word at `pc`. -/
def edgeAt (pc : Address) (word : Word) : Option Edge :=
  match decode word with
  | some (.branch condition d) =>
    let kind := if condition.isConditional then EdgeKind.conditionalBranch else .branch
    some ⟨pc, Word.ofInt? (Instruction.destination pc d), kind⟩
  | some (.exchange _) => some ⟨pc, none, .indirect⟩
  | _ => none

namespace Image

/-- The control transfers of an image. -/
def edges (img : Image) : List Edge :=
  img.instructions.toList.filterMap fun (pc, word) => edgeAt pc word

/-- The name of a branch target. -/
def targetName (address : Address) : String :=
  "loc_" ++ hexDigits 4 address.toNat

/-- The lowest instruction address, named `start`. -/
def entryLabel (img : Image) : Std.TreeMap Address String :=
  match img.instructions.minKey? with
  | some entry => (∅ : Std.TreeMap Address String).insert entry "start"
  | none => ∅

/-- Names for the lowest instruction address and for the targets of edges. -/
def labels (img : Image) : Std.TreeMap Address String :=
  (img.edges.filterMap Edge.target).foldl
    (fun names target => names.insertIfNew target (targetName target)) img.entryLabel

end Image
end FlaglessAsm
