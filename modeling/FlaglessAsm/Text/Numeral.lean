/-!
# Numerals

Reading and writing numbers as digits of a radix, and the fixed column widths of the listings.

## What is here

* `digit?`, `digits?`: the value of one digit, and of a non-empty run of digits.
* `unsigned?`, `signed?`: digits behind an optional `+`, or behind an optional `+` or `-`.
* `decimal`, `hex`, `hexPadded`: how numbers are written.
* `padRight`: text filled with spaces up to a column.
-/

set_option autoImplicit false

namespace FlaglessAsm
namespace Text

/-! ## Reading -/

/-- The value of a digit of radix `radix`, which is at most 36; letters count in either case. -/
def digit? (radix : Nat) (c : Char) : Option Nat :=
  let n := c.toNat
  let value :=
    if 0x30 ≤ n && n ≤ 0x39 then n - 0x30
    else if 0x61 ≤ n && n ≤ 0x7A then n - 0x61 + 10
    else if 0x41 ≤ n && n ≤ 0x5A then n - 0x41 + 10
    else radix
  if value < radix then some value else none

/-- The value of `s` behind the digits that gave `acc`. -/
def digitsFrom? (radix : Nat) (acc : Nat) : List Char → Option Nat
  | [] => some acc
  | c :: cs =>
    match digit? radix c with
    | some d => digitsFrom? radix (acc * radix + d) cs
    | none => none

/-- The value of a run of digits, of which there is at least one. -/
def digits? (radix : Nat) (s : List Char) : Option Nat :=
  if s.isEmpty then none else digitsFrom? radix 0 s

/-- Digits behind an optional `+`. -/
def unsigned? (radix : Nat) (s : List Char) : Option Nat :=
  match s with
  | '+' :: ds => digits? radix ds
  | ds => digits? radix ds

/-- Digits behind an optional `+` or `-`. -/
def signed? (radix : Nat) (s : List Char) : Option Int :=
  match s with
  | '-' :: ds => (digits? radix ds).map fun n => -(n : Int)
  | ds => (unsigned? radix ds).map Int.ofNat

/-! ## Writing -/

/-- A number in decimal digits, with a `-` in front of a negative one. -/
def decimal (n : Int) : String :=
  match n with
  | .ofNat n => String.ofList (Nat.toDigits 10 n)
  | .negSucc n => "-" ++ String.ofList (Nat.toDigits 10 (n + 1))

/-- The hexadecimal digits of a number, in lower case and with zeros in front up to `width`. -/
def hexDigits (width n : Nat) : String :=
  String.ofList ((Nat.toDigits 16 n).leftpad width '0')

/-- A number in hexadecimal behind `0x`. -/
def hex (n : Nat) : String :=
  "0x" ++ hexDigits 0 n

/-- A number behind `0x` with at least `width` hexadecimal digits. -/
def hexPadded (width n : Nat) : String :=
  "0x" ++ hexDigits width n

/-- Text with spaces behind it up to `width` characters. -/
def padRight (width : Nat) (s : String) : String :=
  String.ofList (s.toList.rightpad width ' ')

end Text
end FlaglessAsm
