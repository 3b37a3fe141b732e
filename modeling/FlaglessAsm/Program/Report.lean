import FlaglessAsm.Directive.Document
import FlaglessAsm.Json.Writer
import FlaglessAsm.Program.Basic

/-!
# Programs as JSON

## What is here

* `Binding.members`: a binding as the members of an object.
* `Program.report`: the directives, labels and data boundary of a program.
-/

set_option autoImplicit false

namespace FlaglessAsm

open Json

/-- A binding as the members of an object. -/
def Binding.members : Binding → List (String × Value)
  | .data address => [("kind", .ofText "data"), ("addr", .ofNat address.toNat)]
  | .code pc position =>
    [("kind", .ofText "code"), ("pc", .ofNat pc.toNat), ("position", .ofNat position)]
  | .pointer target => [("kind", .ofText "pointer"), ("target", .ofText target)]

/-- The directives, labels and data boundary of a program. -/
def Program.report (p : Program) : Value :=
  .ofMembers
    [ ("words", .array (p.words.toList.map Directive.toValue)),
      ("symbols", .array (p.symbols.toList.map fun (name, binding) =>
        .ofMembers (("name", .ofText name) :: binding.members))),
      ("data_boundary", match p.dataBoundary with
        | some name => .ofText name
        | none => .null) ]

end FlaglessAsm
