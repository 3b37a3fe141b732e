import FlaglessAsm.Text.Numeral
import FlaglessAsm.Word

/-!
# JSON numbers

A number is kept as its literal.  Documents may hold numbers of any size where their value does not
matter; where all of a document is looked at, a number has to be in the range of doubles.

Whether it is in range is decided by one multiplication: the leading digits, as many as make up a
64-bit number, times a power of ten.  Both factors are rounded to doubles first, so literals just
below the end of the range can be refused.

## What is here

* `Number`: number literals.
* `Number.word?`: the 32-bit number of a plain integer literal.
* `nearestDouble`: the double nearest to a natural number.
* `Number.leading`, `Number.isFinite`: the leading digits of a literal, and its range.
-/

set_option autoImplicit false

namespace FlaglessAsm
namespace Json

open Text

/-! ## Literals -/

/-- A number literal: a sign, the digits in front of the point, those behind it, and an exponent. -/
structure Number where
  negative : Bool := false
  whole : List Char
  fraction : List Char := []
  exponent : Option Int := none
  deriving DecidableEq

namespace Number

/-- A natural number as a literal. -/
def ofNat (n : Nat) : Number where
  whole := Nat.toDigits 10 n

/-- The 32-bit number of a literal with neither a sign, nor a fraction, nor an exponent. -/
def word? (n : Number) : Option Word :=
  if !n.negative && n.fraction.isEmpty && n.exponent.isNone then
    (digits? 10 n.whole).bind Word.ofNat?
  else none

end Number

/-! ## Doubles -/

/-- The bits of the significand of a double. -/
def doubleBits : Nat := 53

/-- The double nearest to a natural number, and of two the one with an even significand; the range
of exponents is not bounded here. -/
def nearestDouble (n : Nat) : Nat :=
  let unit := 1 <<< (n.log2 + 1 - doubleBits)
  let below := n / unit
  let rest := 2 * (n % unit)
  if unit < rest || (unit == rest && below % 2 == 1) then (below + 1) * unit else below * unit

/-- The least number that does not round to a finite double: the midpoint between the largest one
and the power of two behind it. -/
def doubleLimit : Nat := (1 <<< 1024) - (1 <<< 970)

/-- The largest exponent of a power of ten that is a double. -/
def maxPower : Int := 308

/-! ## Range -/

namespace Number

/-- The loop of `leading`: `value` is the number made up by the digits before, and `dropped` counts
those left out. -/
def leadingFrom (value dropped : Nat) : List Char → Nat × Nat
  | [] => (value, dropped)
  | c :: cs =>
    let next := value * 10 + (digit? 10 c).getD 0
    if dropped = 0 && next < UInt64.size then leadingFrom next 0 cs
    else leadingFrom value (dropped + 1) cs

/-- The number made up by the leading digits of a literal, as many as give a 64-bit number, and how
many digits are left out. -/
def leading (n : Number) : Nat × Nat :=
  leadingFrom 0 0 (n.whole ++ n.fraction)

/-- Whether a literal is in the range of doubles. -/
def isFinite (n : Number) : Bool :=
  let (value, dropped) := n.leading
  let power := n.exponent.getD 0 - n.fraction.length + dropped
  if value = 0 || power < 0 then true
  else if maxPower < power then false
  else nearestDouble value * nearestDouble (Nat.pow 10 power.toNat) < doubleLimit

end Number
end Json
end FlaglessAsm
