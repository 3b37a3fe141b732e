import FlaglessAsm.Text.Blank

/-!
# Source lines

A source line keeps its position in the file it came from, for messages.

## What is here

* `SourceLine`, and `SourceLine.ofTexts`: the lines of a file that are not blank.
-/

set_option autoImplicit false

namespace FlaglessAsm

/-- A line of source text and its position, counted from zero. -/
structure SourceLine where
  index : Nat
  text : String
  deriving DecidableEq

/-- The lines from position `index` on, trimmed and without the blank ones. -/
def SourceLine.ofTextsFrom (index : Nat) : List String → List SourceLine
  | [] => []
  | line :: rest =>
    match Text.trim line.toList with
    | [] => ofTextsFrom (index + 1) rest
    | text => ⟨index, String.ofList text⟩ :: ofTextsFrom (index + 1) rest

/-- Lines numbered by their position, trimmed and without the blank ones. -/
def SourceLine.ofTexts (lines : List String) : List SourceLine :=
  ofTextsFrom 0 lines

end FlaglessAsm
