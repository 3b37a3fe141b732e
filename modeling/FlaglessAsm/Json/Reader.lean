import FlaglessAsm.Json.Value

/-!
# Reading JSON

A strict reader: blanks are space, tab, line feed and carriage return, numbers have no leading zeros
or signs other than `-`, strings hold no control characters, and nothing follows the value.

Each reader takes characters off the front of a text and returns the rest.  Values nest, so the
reader of values counts down from a number that the length of the text provides.

## What is here

* `readString`, `readNumber`: the two kinds of token with a grammar of their own.
* `readValue`: one value.
* `parse?`: the value of a text.
-/

set_option autoImplicit false

namespace FlaglessAsm
namespace Json

open Text

/-! ## Blanks -/

/-- The characters that may stand between tokens. -/
def isSpace (c : Char) : Bool :=
  c == ' ' || c == '\t' || c == '\n' || c == '\r'

/-- The text behind leading blanks. -/
def skipSpace (s : List Char) : List Char :=
  s.dropWhile isSpace

/-! ## Strings -/

/-- The character that a one-letter escape stands for. -/
def escape? : Char → Option Char
  | '"' => some '"'
  | '\\' => some '\\'
  | '/' => some '/'
  | 'b' => some '\x08'
  | 'f' => some '\x0c'
  | 'n' => some '\n'
  | 'r' => some '\r'
  | 't' => some '\t'
  | _ => none

/-- The element that a code unit stands for. -/
def elementOfUnit (unit : Nat) : Element :=
  if 0xD800 ≤ unit ∧ unit < 0xE000 then .surrogate unit else .char (Char.ofNat unit)

/-- A string behind its opening quote; `done` holds the elements before, backwards. -/
def readString (done : List Element) : List Char → Option (List Element × List Char)
  | [] => none
  | '"' :: rest => some (done.reverse, rest)
  | '\\' :: 'u' :: a :: b :: c :: d :: rest =>
    match digits? 16 [a, b, c, d] with
    | some unit => readString (elementOfUnit unit :: done) rest
    | none => none
  | '\\' :: c :: rest =>
    match escape? c with
    | some c => readString (.char c :: done) rest
    | none => none
  | c :: rest => if c.toNat < 0x20 || c == '\\' then none else readString (.char c :: done) rest

/-! ## Numbers -/

/-- A run of digits, of which there is at least one. -/
def readDigits (s : List Char) : Option (List Char × List Char) :=
  match s.span Char.isDigit with
  | ([], _) => none
  | digits => some digits

/-- The digits of a fraction, if there is one. -/
def readFraction : List Char → Option (List Char × List Char)
  | '.' :: rest => readDigits rest
  | s => some ([], s)

/-- An exponent, if there is one. -/
def readExponent (s : List Char) : Option (Option Int × List Char) :=
  match s with
  | c :: rest =>
    if c == 'e' || c == 'E' then
      match rest with
      | '-' :: rest => (readDigits rest).map fun (ds, rest) => ((signed? 10 ('-' :: ds)), rest)
      | '+' :: rest => (readDigits rest).map fun (ds, rest) => (signed? 10 ds, rest)
      | rest => (readDigits rest).map fun (ds, rest) => (signed? 10 ds, rest)
    else some (none, s)
  | [] => some (none, s)

/-- The digits in front of a fraction: a single zero, or digits that do not start with one. -/
def readWhole (s : List Char) : Option (List Char × List Char) :=
  match readDigits s with
  | some ('0' :: _ :: _, _) => none
  | digits => digits

/-- A number behind its sign. -/
def readMagnitude (negative : Bool) (s : List Char) : Option (Number × List Char) := do
  let (whole, s) ← readWhole s
  let (fraction, s) ← readFraction s
  let (exponent, s) ← readExponent s
  return (⟨negative, whole, fraction, exponent⟩, s)

/-- A number. -/
def readNumber : List Char → Option (Number × List Char)
  | '-' :: s => readMagnitude true s
  | s => readMagnitude false s

/-! ## Values -/

mutual

/-- A value, behind blanks. -/
def readValue : Nat → List Char → Option (Value × List Char)
  | 0, _ => none
  | fuel + 1, s =>
    match skipSpace s with
    | 'n' :: 'u' :: 'l' :: 'l' :: rest => some (.null, rest)
    | 't' :: 'r' :: 'u' :: 'e' :: rest => some (.bool true, rest)
    | 'f' :: 'a' :: 'l' :: 's' :: 'e' :: rest => some (.bool false, rest)
    | '"' :: rest => (readString [] rest).map fun (s, rest) => (.string s, rest)
    | '[' :: rest =>
      match skipSpace rest with
      | ']' :: rest => some (.array [], rest)
      | rest => readItems fuel [] rest
    | '\x7b' :: rest =>
      match skipSpace rest with
      | '\x7d' :: rest => some (.object [], rest)
      | rest => readMembers fuel [] rest
    | s => (readNumber s).map fun (n, rest) => (.number n, rest)

/-- The items of an array up to its end; `done` holds the ones before, backwards. -/
def readItems : Nat → List Value → List Char → Option (Value × List Char)
  | 0, _, _ => none
  | fuel + 1, done, s =>
    match readValue fuel s with
    | none => none
    | some (item, rest) =>
      match skipSpace rest with
      | ',' :: rest => readItems fuel (item :: done) rest
      | ']' :: rest => some (.array (item :: done).reverse, rest)
      | _ => none

/-- The members of an object up to its end; `done` holds the ones before, backwards. -/
def readMembers : Nat → List (List Element × Value) → List Char → Option (Value × List Char)
  | 0, _, _ => none
  | fuel + 1, done, s =>
    match skipSpace s with
    | '"' :: rest =>
      match readString [] rest with
      | none => none
      | some (key, rest) =>
        match skipSpace rest with
        | ':' :: rest =>
          match readValue fuel rest with
          | none => none
          | some (value, rest) =>
            match skipSpace rest with
            | ',' :: rest => readMembers fuel ((key, value) :: done) rest
            | '\x7d' :: rest => some (.object ((key, value) :: done).reverse, rest)
            | _ => none
        | _ => none
    | _ => none

end

/-- The value of a text.  Each call consumes a character or is followed by one that does. -/
def parse? (text : String) : Option Value :=
  let s := text.toList
  match readValue (2 * s.length + 2) s with
  | some (value, rest) => if (skipSpace rest).isEmpty then some value else none
  | none => none

end Json
end FlaglessAsm
