import FlaglessAsm.Directive.Basic
import FlaglessAsm.Json.Reader

/-!
# Directives as JSON

A directive is an object whose member `kind` names it; its other members are ignored if the
directive does not have them.  The same can be written as an array of the kind and the arguments in
order.

## What is here

* `Directive.toValue`: a directive as a JSON value.
* `Directive.ofJson?`: the directive of a document.
-/

set_option autoImplicit false

namespace FlaglessAsm
namespace Directive

open Json

/-! ## Writing -/

/-- The name of the kind of a directive. -/
def kind : Directive → String
  | .dataWrite .. => "dmem_write"
  | .dataRead _ => "dmem_read"
  | .instructionWrite .. => "imem_write"
  | .pcReset => "pc_reset"
  | .step => "step"
  | .run _ => "run"

/-- The named arguments of a directive. -/
def arguments : Directive → List (String × Value)
  | .dataWrite address high low =>
    [("addr", .ofNat address.toNat), ("high", .ofNat high.toNat), ("low", .ofNat low.toNat)]
  | .dataRead address => [("addr", .ofNat address.toNat)]
  | .instructionWrite address word =>
    [("addr", .ofNat address.toNat), ("word", .ofNat word.toNat)]
  | .pcReset | .step => []
  | .run enable => [("enable", .bool enable)]

/-- A directive as an object. -/
def toValue (d : Directive) : Value :=
  .ofMembers (("kind", .ofText d.kind) :: d.arguments)

/-! ## Reading -/

/-- The names of the arguments of a kind of directive. -/
def argumentNames? : String → Option (List String)
  | "dmem_write" => some ["addr", "high", "low"]
  | "dmem_read" => some ["addr"]
  | "imem_write" => some ["addr", "word"]
  | "pc_reset" => some []
  | "step" => some []
  | "run" => some ["enable"]
  | _ => none

/-- The directive of a kind with given arguments. -/
def ofArguments? (kind : String) (arguments : List Value) : Option Directive :=
  match kind, arguments with
  | "dmem_write", [address, high, low] =>
    return .dataWrite (← address.word?) (← high.word?) (← low.word?)
  | "dmem_read", [address] => return .dataRead (← address.word?)
  | "imem_write", [address, word] => return .instructionWrite (← address.word?) (← word.word?)
  | "pc_reset", [] => some .pcReset
  | "step", [] => some .step
  | "run", [enable] => return .run (← enable.bool?)
  | _, _ => none

/-- The only value with a given name. -/
def member? (members : List (String × Value)) (name : String) : Option Value :=
  match members.filter fun m => m.1 == name with
  | [(_, value)] => some value
  | _ => none

/-- The directive of a value. -/
def ofValue? : Value → Option Directive
  | .object members => do
    let members ← members.mapM fun (key, value) => return (← Json.text? key, value)
    let kind ← (← member? members "kind").text?
    let names ← argumentNames? kind
    ofArguments? kind (← names.mapM (member? members))
  | .array (kind :: arguments) => do ofArguments? (← kind.text?) arguments
  | _ => none

/-- How deep arrays and objects of a document may nest. -/
def maxDepth : Nat := 127

/-- The directive of a document.  Everything in the document is looked at, so that its texts have to
be proper and its numbers finite. -/
def ofJson? (text : String) : Option Directive := do
  let value ← Json.parse? text
  if value.isPlain maxDepth then ofValue? value else none

end Directive
end FlaglessAsm
