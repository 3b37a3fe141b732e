import FlaglessAsm.Directive.Basic
import FlaglessAsm.SymbolTable

/-!
# Programs

An assembled program: the directives that load it, its labels, and the label that ended its data.

## What is here

* `Program`, and what it writes: `Program.instructions`, `Program.data`.
* `Program.push`, `Program.pushReadBack`: more directives behind the program.
* `Program.render`: the program as directive text.
-/

set_option autoImplicit false

namespace FlaglessAsm

open Text

/-- An assembled program. -/
structure Program where
  words : Array Directive
  symbols : SymbolTable
  /-- The label of the first data word that refers to a label. -/
  dataBoundary : Option String

namespace Program

/-! ## Contents -/

/-- The instruction words written, with their addresses. -/
def instructions (p : Program) : Array (Address × Word) :=
  p.words.filterMap fun
    | .instructionWrite address word => some (address, word)
    | _ => none

/-- The data words written, with their addresses. -/
def data (p : Program) : Array (Address × Word × Word) :=
  p.words.filterMap fun
    | .dataWrite address high low => some (address, high, low)
    | _ => none

/-! ## More directives -/

/-- Appends a directive. -/
def push (p : Program) (d : Directive) : Program :=
  { p with words := p.words.push d }

/-- Appends `count` copies of a directive. -/
def pushMany (p : Program) (count : Nat) (d : Directive) : Program :=
  { p with words := p.words ++ Array.replicate count d }

/-- Appends directives that read `count` data words from an address on, all of them in front of the
last address. -/
def pushReadBack (p : Program) (start count : Word) : Except AsmError Program :=
  if start.toNat + count.toNat < UInt32.size then
    let reads := (Array.range count.toNat).map fun k => Directive.dataRead (start + UInt32.ofNat k)
    .ok { p with words := p.words ++ reads }
  else .error (.invalidConfig (.readBack start count))

/-! ## Text -/

/-- The directives of a program, each on a line of its own. -/
def render (p : Program) : String :=
  p.words.foldl (fun text d => text ++ d.render ++ "\n") ""

end Program
end FlaglessAsm
