import FlaglessAsm.Image.Listing
import FlaglessAsm.Json.Writer

/-!
# Images as JSON

## What is here

* `Image.report`: the sections, instruction words and control transfers of an image.
-/

set_option autoImplicit false

namespace FlaglessAsm

open Json

/-- A section as an object. -/
def Section.toValue (s : Section) : Value :=
  .ofMembers
    [ ("name", .ofText s.name), ("kind", .ofText s.kind), ("start", .ofNat s.range.start),
      ("end", .ofNat s.range.stop) ]

/-- A row of a listing as an object. -/
def ListedWord.toValue (row : ListedWord) : Value :=
  .ofMembers
    [ ("pc", .ofNat row.pc.toNat), ("word", .ofNat row.word.toNat), ("text", .ofText row.text),
      ("label", match row.label with
        | some name => .ofText name
        | none => .null) ]

/-- A control transfer as an object. -/
def Edge.toValue (e : Edge) : Value :=
  .ofMembers
    [ ("from", .ofNat e.origin.toNat),
      ("to", match e.target with
        | some target => .ofNat target.toNat
        | none => .null),
      ("kind", .ofText e.kind.name) ]

/-- The sections, instruction words and control transfers of an image. -/
def Image.report (img : Image) : Value :=
  .ofMembers
    [ ("sections", .array (img.sections.map Section.toValue)),
      ("insns", .array (img.listedWords.map ListedWord.toValue)),
      ("edges", .array (img.edges.map Edge.toValue)) ]

end FlaglessAsm
