import Std.Data.TreeMap
import FlaglessAsm.Directive.Basic
import FlaglessAsm.Text.Lines

/-!
# Memory images

An image records what the machine holds after a list of directives.  Nothing is executed.

A strict image refuses a second write to an instruction address.  The refused word has replaced the
first one by then, as the steps below keep the image of a failing directive.

## What is here

* `Image`, `ImageError`: an image, and why directives are refused.
* `Image.readData`, `Image.apply`, `Image.load`: the effect of directives.
* `Image.ofText`: the image of a directive text.
-/

set_option autoImplicit false

namespace FlaglessAsm

open Text

/-! ## Images -/

/-- What the machine holds. -/
structure Image where
  instructions : Std.TreeMap Address Word := ∅
  /-- The data words, in halves. -/
  data : Std.TreeMap Address (Word × Word) := ∅
  /-- How often the program counter was reset, a 32-bit count. -/
  resets : UInt32 := 0
  /-- How many steps were taken, a 32-bit count. -/
  steps : UInt32 := 0
  running : Bool := false
  /-- The data addresses read, in order. -/
  reads : Array Address := #[]
  /-- Whether a second write to an instruction address is refused. -/
  strict : Bool := false

/-- Why a directive, or a directive text, is refused. -/
inductive ImageError where
  | writtenTwice (address : Address)
  /-- A line, counted from one, is not a directive. -/
  | badLine (number : Nat) (error : DirectiveError)
  deriving DecidableEq

/-- The wording of an error. -/
def ImageError.message : ImageError → String
  | .writtenTwice address => "instruction address " ++ decimal address.toNat ++ " written twice"
  | .badLine number error => "line " ++ decimal number ++ ": " ++ error.message

namespace Image

/-! ## Directives -/

/-- Reads a data word; one that was never written reads zero. -/
def readData (address : Address) : EStateM ImageError Image (Word × Word) := do
  modify fun img => { img with reads := img.reads.push address }
  return (← get).data.getD address (0, 0)

/-- Writes an instruction word. -/
def writeInstruction (address : Address) (word : Word) : EStateM ImageError Image Unit := do
  let written := (← get).instructions.contains address
  modify fun img => { img with instructions := img.instructions.insert address word }
  if written && (← get).strict then throw (.writtenTwice address)

/-- The effect of a directive. -/
def apply : Directive → EStateM ImageError Image Unit
  | .dataWrite address high low =>
    modify fun img => { img with data := img.data.insert address (high, low) }
  | .dataRead address => do
    let _ ← readData address
  | .instructionWrite address word => writeInstruction address word
  | .pcReset => modify fun img => { img with resets := img.resets + 1 }
  | .step => modify fun img => { img with steps := img.steps + 1 }
  | .run enable => modify fun img => { img with running := enable }

/-- The effect of a list of directives, up to the first one that is refused. -/
def load : List Directive → EStateM ImageError Image Unit
  | [] => pure ()
  | d :: rest => do
    apply d
    load rest

/-! ## Directive text -/

/-- Whether a trimmed line holds no directive: it is empty or a comment. -/
def isSkipped : List Char → Bool
  | [] => true
  | c :: _ => c == '#'

/-- The effect of a directive text whose first line has a given number. -/
def loadLines (number : Nat) : List (List Char) → EStateM ImageError Image Unit
  | [] => pure ()
  | line :: rest => do
    let line := trim line
    if !isSkipped line then
      match Directive.read line with
      | .ok d => apply d
      | .error e => throw (.badLine number e)
    loadLines (number + 1) rest

/-- The image of a directive text. -/
def ofText (text : String) : Except ImageError Image :=
  match (loadLines 1 (lines text.toList)).run {} with
  | .ok () img => .ok img
  | .error e _ => .error e

end Image
end FlaglessAsm
