import FlaglessAsm.Config.Basic
import FlaglessAsm.Json.Reader

/-!
# Configuration documents

A configuration can be written as a JSON object, in which settings may be left out, or as a JSON
array of the settings in order, in which the last ones may be left out.  Members with other names
are ignored.

## What is here

* `PadPolicy.ofValue?`: a padding policy by name.
* `Config.ofJson?`: the configuration of a document.
-/

set_option autoImplicit false

namespace FlaglessAsm

open Json

namespace PadPolicy

/-- The policy with a given name. -/
def ofName? : String → Option PadPolicy
  | "all" => some .all
  | "writes" => some .writes
  | _ => none

/-- The name of a policy. -/
def name : PadPolicy → String
  | .all => "all"
  | .writes => "writes"

/-- A policy is written as its name, or as an object with its name as the only member, which is
null. -/
def ofValue? : Value → Option PadPolicy
  | .object [(key, .null)] => (Json.text? key).bind ofName?
  | v => v.text?.bind ofName?

end PadPolicy

namespace Config

/-- The setting with a given name among named values, of which at most one may have the name. -/
def member? {α : Type} (members : List (String × Value)) (name : String)
    (read : Value → Option α) (default : α) : Option α :=
  match members.filter fun m => m.1 == name with
  | [] => some default
  | [(_, value)] => read value
  | _ => none

/-- The configuration with given settings. -/
def ofMembers? (members : List (String × Value)) : Option Config := do
  let base : Config := {}
  return {
    textStart := ← member? members "text_start" Value.word? base.textStart
    dataStart := ← member? members "data_start" Value.word? base.dataStart
    workspaceBase := ← member? members "workspace_base" Value.word? base.workspaceBase
    hazardPad := ← member? members "hazard_pad" Value.word? base.hazardPad
    padPolicy := ← member? members "pad_policy" PadPolicy.ofValue? base.padPolicy
    strictCompare := ← member? members "strict_compare" Value.bool? base.strictCompare
    prologue := ← member? members "prologue" Value.bool? base.prologue }

/-- The names of the settings, in order. -/
def settings : List String :=
  [ "text_start", "data_start", "workspace_base", "hazard_pad", "pad_policy", "strict_compare",
    "prologue" ]

/-- The configuration of a value. -/
def ofValue? : Value → Option Config
  | .object members => do
    ofMembers? (← members.mapM fun (key, value) => return (← Json.text? key, value))
  | .array items =>
    if settings.length < items.length then none else ofMembers? (settings.zip items)
  | _ => none

/-- The configuration of a document. -/
def ofJson? (text : String) : Option Config :=
  (Json.parse? text).bind ofValue?

end Config
end FlaglessAsm
