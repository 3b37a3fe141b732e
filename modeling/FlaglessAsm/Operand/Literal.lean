import FlaglessAsm.Operand.Basic
import FlaglessAsm.Text.Blank
import FlaglessAsm.Text.Numeral
import FlaglessAsm.Word

/-!
# Number literals

A literal is an optional `-` and a magnitude: hexadecimal digits behind `0x`, decimal digits behind
`$`, or bare decimal digits.  Blanks may stand around the literal and behind its `-`.  Digits behind
`0x` or `$` may have a sign of their own.  Magnitudes and literals are 128-bit signed numbers, and
immediates are 64-bit signed numbers.

## What is here

* `opposite`: the number behind a `-`, with its sign changed.
* `magnitude?`, `literal?`: the number a literal stands for.
* `readNumber`, `readImmediate`: the same, with the error for anything else.
-/

set_option autoImplicit false

namespace FlaglessAsm

open Text

/-- The digits of a literal behind its `-`. -/
def magnitudeDigits? : List Char → Option Int
  | '0' :: 'x' :: ds => signed? 16 ds
  | '0' :: 'X' :: ds => signed? 16 ds
  | '$' :: ds => signed? 10 ds
  | c :: cs => if c.isDigit then signed? 10 (c :: cs) else none
  | [] => none

/-- The part of a literal behind its `-`, if it is a 128-bit number. -/
def magnitude? (s : List Char) : Option Int :=
  (magnitudeDigits? s).filter (fitsSigned 128)

/-- The 128-bit number with the other sign.  The smallest number has no opposite of 128 bits; it
wraps around to itself. -/
def opposite (m : Int) : Int :=
  (-m).bmod (1 <<< 128)

/-- The number that a literal without surrounding blanks stands for. -/
def literal? : List Char → Option Int
  | '-' :: s => (magnitude? (trimLeft s)).map opposite
  | s => magnitude? s

/-- The number that a literal stands for. -/
def readNumber (s : List Char) : Except OperandError Int :=
  match literal? (trim s) with
  | some value => .ok value
  | none => .error (.badNumber (String.ofList (trim s)))

/-- The number that the literal of an immediate stands for. -/
def readImmediate (s : List Char) : Except OperandError Int :=
  match readNumber s with
  | .ok value =>
    if fitsSigned 64 value then .ok value else .error (.badNumber (String.ofList (trim s)))
  | .error e => .error e

end FlaglessAsm
