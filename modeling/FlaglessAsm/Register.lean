/-!
# Registers

The machine has sixteen registers, named by a four-bit code.  Register `r0` always reads zero, and
`r8` to `r11` belong to the assembler: source text may not name them.

## What is here

* `Register` and the registers with a role of their own.
* `Register.name`, `Register.ofName?`: names, read without regard to ASCII case.
* `Register.isReserved`: the registers source text may not name.
-/

set_option autoImplicit false

namespace FlaglessAsm

/-- A register, by its four-bit code. -/
structure Register where
  /-- The code that stands for the register in an instruction word. -/
  code : Fin 16
  deriving DecidableEq, Inhabited

namespace Register

/-! ## Roles -/

/-- Reads as zero; writes to it are lost. -/
def zero : Register := ⟨0⟩

/-- Stands in for every `r0` of source text, which is an ordinary register there. -/
def sourceZero : Register := ⟨8⟩

/-- Holds immediates that the machine only takes from a register. -/
def scratch : Register := ⟨9⟩

/-- Holds, after a compare, whether the first operand is less than the second. -/
def lessThan : Register := ⟨10⟩

/-- Holds, after a compare, whether the second operand is less than the first. -/
def greaterThan : Register := ⟨11⟩

/-- The stack pointer. -/
def sp : Register := ⟨12⟩

/-- The frame pointer. -/
def fp : Register := ⟨13⟩

/-- The link register. -/
def lr : Register := ⟨14⟩

/-- The registers source text may not name. -/
def isReserved (r : Register) : Bool :=
  8 ≤ r.code.val && r.code.val ≤ 11

/-! ## Names and codes -/

/-- The name of a register. -/
def name (r : Register) : String :=
  match r.code with
  | 0 => "r0" | 1 => "r1" | 2 => "r2" | 3 => "r3"
  | 4 => "r4" | 5 => "r5" | 6 => "r6" | 7 => "r7"
  | 8 => "r8" | 9 => "r9" | 10 => "r10" | 11 => "r11"
  | 12 => "sp" | 13 => "fp" | 14 => "lr" | _ => "ip"

/-- Every register, by increasing code. -/
def all : List Register :=
  (List.finRange 16).map Register.mk

/-- The register with a given name, in either ASCII case. -/
def ofName? (name : List Char) : Option Register :=
  all.find? fun r => r.name.toList == name.map Char.toLower

/-- The register with a given code. -/
def ofCode? (code : Nat) : Option Register :=
  if h : code < 16 then some ⟨⟨code, h⟩⟩ else none

/-- The register named by the low four bits of a number. -/
def ofBits (bits : Nat) : Register :=
  ⟨⟨bits % 16, Nat.mod_lt _ (by decide)⟩⟩

theorem ofName?_name (r : Register) : ofName? r.name.toList = some r := by
  obtain ⟨c⟩ := r
  revert c
  decide

end Register
end FlaglessAsm
