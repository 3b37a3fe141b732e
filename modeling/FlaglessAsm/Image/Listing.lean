import FlaglessAsm.Image.ControlFlow
import FlaglessAsm.Image.Section

/-!
# Listings of an image

## What is here

* `ListedWord`, `Image.listedWords`: the instruction words with their text and labels.
* `Image.listing`: the listing as text, with or without the data memory.
* `Image.sectionTable`: the sections as a table.
-/

set_option autoImplicit false

namespace FlaglessAsm

open Text

/-- A row of a listing. -/
structure ListedWord where
  pc : Address
  word : Word
  text : String
  label : Option String
  deriving DecidableEq

namespace Image

/-- The instruction words of an image by increasing address. -/
def listedWords (img : Image) : List ListedWord :=
  let names := img.labels
  img.instructions.toList.map fun (pc, word) => ⟨pc, word, disassemble pc word, names[pc]?⟩

/-- A row of a listing as text, behind the label of its address. -/
def renderRow (row : ListedWord) : String :=
  let label := match row.label with
    | some name => hexPadded 4 row.pc.toNat ++ " <" ++ name ++ ">:\n"
    | none => ""
  label ++ "  " ++ hexPadded 4 row.pc.toNat ++ ": " ++ hexDigits 8 row.word.toNat ++ "  "
    ++ row.text ++ "\n"

/-- A data word as text. -/
def renderData (address : Address) (high low : Word) : String :=
  "  " ++ hexPadded 4 address.toNat ++ ": " ++ hexDigits 8 high.toNat ++ " "
    ++ hexDigits 8 low.toNat ++ "\n"

/-- The instruction words of an image and, if asked for, its data words. -/
def listing (img : Image) (withData : Bool) : String :=
  let text := img.listedWords.foldl (fun text row => text ++ renderRow row) ""
  if withData then
    img.data.toList.foldl (fun text (address, high, low) => text ++ renderData address high low)
      (text ++ "\ndata:\n")
  else text

/-- A row of the table of sections. -/
def sectionRow (name kind start stop : String) : String :=
  padRight 8 name ++ " " ++ padRight 6 kind ++ " " ++ padRight 8 start ++ " " ++ padRight 8 stop
    ++ "\n"

/-- The sections of an image as a table. -/
def sectionTable (img : Image) : String :=
  img.sections.foldl
    (fun text s =>
      text ++ sectionRow s.name s.kind (decimal s.range.start) (decimal s.range.stop))
    (sectionRow "name" "kind" "start" "end")

end Image
end FlaglessAsm
