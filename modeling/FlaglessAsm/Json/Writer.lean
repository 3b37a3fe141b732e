import FlaglessAsm.Json.Value

/-!
# Writing JSON

Values are written over several lines, with two spaces of indentation per level.

## What is here

* `quote`: a string in quotation marks.
* `Value.render`: a value.
-/

set_option autoImplicit false

namespace FlaglessAsm
namespace Json

open Text

/-! ## Strings and numbers -/

/-- A code unit as an escape. -/
def escapeUnit (unit : Nat) : String :=
  "\\u" ++ hexDigits 4 unit

/-- A character inside quotation marks. -/
def quoteChar (c : Char) : String :=
  match c with
  | '"' => "\\\""
  | '\\' => "\\\\"
  | '\n' => "\\n"
  | '\r' => "\\r"
  | '\t' => "\\t"
  | '\x08' => "\\b"
  | '\x0c' => "\\f"
  | c => if c.toNat < 0x20 then escapeUnit c.toNat else String.singleton c

/-- An element of a string inside quotation marks. -/
def quoteElement : Element → String
  | .char c => quoteChar c
  | .surrogate unit => escapeUnit unit

/-- A string in quotation marks. -/
def quote (s : List Element) : String :=
  "\"" ++ String.join (s.map quoteElement) ++ "\""

/-- A number literal. -/
def renderNumber (n : Number) : String :=
  (if n.negative then "-" else "") ++ String.ofList n.whole
    ++ (if n.fraction.isEmpty then "" else "." ++ String.ofList n.fraction)
    ++ (n.exponent.map fun e => "e" ++ decimal e).getD ""

/-! ## Values -/

/-- The beginning of a line at a level. -/
def newline (level : Nat) : String :=
  "\n" ++ String.ofList (List.replicate (2 * level) ' ')

/-- Items at a level between brackets, each on a line of its own. -/
def bracketed (level : Nat) (opening closing : String) (items : List String) : String :=
  if items.isEmpty then opening ++ closing
  else opening ++ newline (level + 1)
    ++ String.intercalate ("," ++ newline (level + 1)) items ++ newline level ++ closing

mutual

/-- A value at a level. -/
def renderAt (level : Nat) : Value → String
  | .null => "null"
  | .bool b => if b then "true" else "false"
  | .number n => renderNumber n
  | .string s => quote s
  | .array items => bracketed level "[" "]" (renderItems (level + 1) items)
  | .object members => bracketed level "\x7b" "\x7d" (renderMembers (level + 1) members)

/-- The items of an array. -/
def renderItems (level : Nat) : List Value → List String
  | [] => []
  | item :: rest => renderAt level item :: renderItems level rest

/-- The members of an object. -/
def renderMembers (level : Nat) : List (List Element × Value) → List String
  | [] => []
  | (key, value) :: rest => (quote key ++ ": " ++ renderAt level value) :: renderMembers level rest

end

/-- A value. -/
def Value.render (v : Value) : String :=
  renderAt 0 v

end Json
end FlaglessAsm
