import FlaglessAsm.Json.Number

/-!
# JSON values

Values are kept as they were written: numbers as literals, members of an object in order and with
repetitions, and strings with the surrogates that escapes can leave without a partner.

## What is here

* `Element`, `Value`: elements of strings, and values.
* `Value.text?`, `Value.bool?`, `Value.word?`: what a value stands for.
* `Value.isPlain`: values of bounded depth with finite numbers and proper text.
-/

set_option autoImplicit false

namespace FlaglessAsm
namespace Json

/-! ## Values -/

/-- An element of a string. -/
inductive Element where
  | char (c : Char)
  /-- A code unit between `0xD800` and `0xDFFF`, written as an escape. -/
  | surrogate (unit : Nat)
  deriving DecidableEq

/-- A JSON value. -/
inductive Value where
  | null
  | bool (b : Bool)
  | number (n : Number)
  | string (s : List Element)
  | array (items : List Value)
  | object (members : List (List Element × Value))

/-! ## Text -/

/-- A string without surrogates. -/
def elements (s : String) : List Element :=
  s.toList.map .char

/-- The character of a pair of surrogates. -/
def pair? (high low : Nat) : Option Char :=
  if 0xD800 ≤ high ∧ high < 0xDC00 ∧ 0xDC00 ≤ low ∧ low < 0xE000 then
    some (Char.ofNat (0x10000 + (high - 0xD800) * 0x400 + (low - 0xDC00)))
  else none

/-- The characters of a string, if every surrogate has a partner. -/
def chars? : List Element → Option (List Char)
  | [] => some []
  | .char c :: rest => (chars? rest).map (c :: ·)
  | .surrogate high :: .surrogate low :: rest =>
    match pair? high low with
    | some c => (chars? rest).map (c :: ·)
    | none => none
  | .surrogate _ :: _ => none

/-- The text of a string, if every surrogate has a partner. -/
def text? (s : List Element) : Option String :=
  (chars? s).map String.ofList

namespace Value

/-! ## What values stand for -/

/-- The text of a value that is a string. -/
def text? : Value → Option String
  | .string s => Json.text? s
  | _ => none

/-- The truth value of a value that is one. -/
def bool? : Value → Option Bool
  | .bool b => some b
  | _ => none

/-- The 32-bit number of a value that is a plain integer literal. -/
def word? : Value → Option Word
  | .number n => n.word?
  | _ => none

/-- Whether arrays and objects nest at most `depth` deep, strings are proper text and numbers are
finite. -/
def isPlain : Nat → Value → Bool
  | _, .null | _, .bool _ => true
  | _, .number n => n.isFinite
  | _, .string s => (Json.text? s).isSome
  | 0, .array _ | 0, .object _ => false
  | depth + 1, .array items => items.all (isPlain depth)
  | depth + 1, .object members =>
    members.all fun (key, value) => (Json.text? key).isSome && isPlain depth value

/-! ## Building values -/

/-- A natural number as a value. -/
def ofNat (n : Nat) : Value :=
  .number (.ofNat n)

/-- A text as a value. -/
def ofText (s : String) : Value :=
  .string (elements s)

/-- A list of named values as an object. -/
def ofMembers (members : List (String × Value)) : Value :=
  .object (members.map fun (key, value) => (elements key, value))

end Value
end Json
end FlaglessAsm
