import FlaglessAsm.Directive.Basic

/-!
# Numerals read back

The digits of a number in a radix of at most 16 are read as that number.  Every digit written is a
`Nat.digitChar`, so what holds of those sixteen characters holds of every character of a numeral.

## What is here

* `forall_mem_toDigits`: a property of the digits of a radix holds along a numeral.
* `digits?_toDigits`, `unsigned?_toDigits`: the digits of a number are read as that number.
* `Directive.number?_decimal`, `Directive.number?_hex`: the numbers of directives.
-/

set_option autoImplicit false

namespace FlaglessAsm
namespace Text

/-! ## Digits -/

theorem isBlank_digitChar : ∀ n < 16, isBlank n.digitChar = false := by
  decide

theorem digit?_digitChar : ∀ radix ≤ 16, ∀ n < radix, digit? radix n.digitChar = some n := by
  decide

/-- What holds of the digits of a radix holds of every character of a numeral. -/
theorem forall_mem_toDigits {radix : Nat} {P : Char → Prop} (hradix : 1 < radix)
    (h : ∀ n < radix, P n.digitChar) (n : Nat) : ∀ c ∈ Nat.toDigits radix n, P c := by
  induction n using Nat.strongRecOn with
  | ind n ih =>
    intro c hc
    rw [Nat.toDigits_eq_if hradix] at hc
    by_cases hn : n < radix
    · rw [if_pos hn, List.mem_singleton] at hc
      exact hc ▸ h n hn
    · rw [if_neg hn, List.mem_append, List.mem_singleton] at hc
      rcases hc with hc | rfl
      · exact ih (n / radix) (Nat.div_lt_self (by omega) hradix) c hc
      · exact h (n % radix) (Nat.mod_lt n (by omega))

/-! ## Runs of digits -/

theorem digitsFrom?_append (radix acc : Nat) (s t : List Char) :
    digitsFrom? radix acc (s ++ t) =
      (digitsFrom? radix acc s).bind fun value => digitsFrom? radix value t := by
  induction s generalizing acc with
  | nil => rfl
  | cons c cs ih =>
    rw [List.cons_append, digitsFrom?, digitsFrom?]
    cases digit? radix c with
    | none => rfl
    | some d => exact ih (acc * radix + d)

theorem digitsFrom?_digitChar {radix n : Nat} (hradix : radix ≤ 16) (h : n < radix) (acc : Nat) :
    digitsFrom? radix acc [n.digitChar] = some (acc * radix + n) := by
  rw [digitsFrom?, digit?_digitChar radix hradix n h]
  rfl

theorem digitsFrom?_toDigits {radix : Nat} (hone : 1 < radix) (hradix : radix ≤ 16) (n : Nat) :
    digitsFrom? radix 0 (Nat.toDigits radix n) = some n := by
  induction n using Nat.strongRecOn with
  | ind n ih =>
    rw [Nat.toDigits_eq_if hone]
    by_cases hn : n < radix
    · rw [if_pos hn, digitsFrom?_digitChar hradix hn, Nat.zero_mul, Nat.zero_add]
    · have hfront := ih (n / radix) (Nat.div_lt_self (by omega) hone)
      have hlast : n % radix < radix := Nat.mod_lt n (by omega)
      rw [if_neg hn, digitsFrom?_append, hfront, Option.bind_some,
        digitsFrom?_digitChar hradix hlast, Nat.mul_comm, Nat.div_add_mod]

/-- The digits of a number are read as that number. -/
theorem digits?_toDigits {radix : Nat} (hone : 1 < radix) (hradix : radix ≤ 16) (n : Nat) :
    digits? radix (Nat.toDigits radix n) = some n := by
  rw [digits?, if_neg (by simp [Nat.toDigits_ne_nil]), digitsFrom?_toDigits hone hradix]

theorem digitChar_ne_plus : ∀ n < 16, n.digitChar ≠ '+' := by
  decide

/-- A numeral does not start with the sign that an unsigned number may have. -/
theorem unsigned?_toDigits {radix : Nat} (hone : 1 < radix) (hradix : radix ≤ 16) (n : Nat) :
    unsigned? radix (Nat.toDigits radix n) = some n := by
  have hplus : ∀ c ∈ Nat.toDigits radix n, c ≠ '+' :=
    forall_mem_toDigits hone (fun m hm => digitChar_ne_plus m (by omega)) n
  unfold unsigned?
  split
  · next ds hds => exact absurd rfl (hplus '+' (hds ▸ List.mem_cons_self))
  · exact digits?_toDigits hone hradix n

/-! ## Numerals as written -/

theorem toList_decimal (n : Nat) : (decimal n).toList = Nat.toDigits 10 n :=
  String.toList_ofList

theorem toList_hex (n : Nat) : (hex n).toList = '0' :: 'x' :: Nat.toDigits 16 n := by
  simp [hex, hexDigits, List.leftpad]

end Text

namespace Directive

open Text

theorem digitChar_ne_x : ∀ n < 10, n.digitChar ≠ 'x' ∧ n.digitChar ≠ 'X' := by
  decide

/-- A decimal number of a directive reads back: no digit of it is taken for the mark of a
hexadecimal one. -/
theorem number?_decimal (w : Word) : number? (Nat.toDigits 10 w.toNat) = some w := by
  have hx : ∀ c ∈ Nat.toDigits 10 w.toNat, c ≠ 'x' ∧ c ≠ 'X' :=
    forall_mem_toDigits (by decide) digitChar_ne_x w.toNat
  unfold number?
  split
  · next ds hds => exact absurd rfl (hx 'x' (by simp [hds])).1
  · next ds hds => exact absurd rfl (hx 'X' (by simp [hds])).2
  · rw [unsigned?_toDigits (by decide) (by decide), Option.bind_some, Word.ofNat?_eq_some_iff]

/-- A hexadecimal number of a directive reads back. -/
theorem number?_hex (w : Word) : number? ('0' :: 'x' :: Nat.toDigits 16 w.toNat) = some w := by
  show (unsigned? 16 (Nat.toDigits 16 w.toNat)).bind Word.ofNat? = some w
  rw [unsigned?_toDigits (by decide) (by decide), Option.bind_some, Word.ofNat?_eq_some_iff]

end Directive
end FlaglessAsm
