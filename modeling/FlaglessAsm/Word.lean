/-!
# Words and addresses

Instruction words, halves of data words and addresses have 32 bits.

## What is here

* `Word`, `Address`.
* `Word.ofNat?`, `Word.ofInt?`: the word of a number in range.
* `Address.next?`: the address behind an address, and addresses that lie a number behind another.
* `fitsUnsigned`, `fitsSigned`: the numbers that a field can hold.
-/

set_option autoImplicit false

namespace FlaglessAsm

/-- An instruction word, or half of a data word. -/
abbrev Word := UInt32

/-- A position in one of the memories. -/
abbrev Address := UInt32

/-! ## Numbers in range -/

/-- The word of a natural number, if it has one. -/
def Word.ofNat? (n : Nat) : Option Word :=
  if n < UInt32.size then some (UInt32.ofNat n) else none

/-- The word of a number, if it has one. -/
def Word.ofInt? : Int → Option Word
  | .ofNat n => Word.ofNat? n
  | .negSucc _ => none

/-- The address behind `a`, unless `a` is the last one. -/
def Address.next? (a : Address) : Option Address :=
  Word.ofNat? (a.toNat + 1)

theorem Word.ofNat?_eq_some_iff {n : Nat} {w : Word} : Word.ofNat? n = some w ↔ n = w.toNat := by
  unfold Word.ofNat?
  split
  · next h =>
    rw [Option.some_inj, ← UInt32.toNat_inj, UInt32.toNat_ofNat_of_lt' h]
  · next h =>
    refine ⟨fun h' => by simp at h', ?_⟩
    rintro rfl
    exact absurd w.toNat_lt_size h

theorem Word.ofInt?_eq_some_iff {n : Int} {w : Word} : Word.ofInt? n = some w ↔ n = w.toNat := by
  cases n with
  | ofNat n => exact Word.ofNat?_eq_some_iff.trans Int.ofNat_inj.symm
  | negSucc n => simp [Word.ofInt?]

theorem Address.next?_eq_some_iff {a b : Address} :
    a.next? = some b ↔ b.toNat = a.toNat + 1 := by
  rw [Address.next?, Word.ofNat?_eq_some_iff, eq_comm]

theorem Address.toNat_add_ofNat {a : Address} {n : Nat} (h : a.toNat + n < UInt32.size) :
    (a + UInt32.ofNat n).toNat = a.toNat + n := by
  rw [UInt32.toNat_add, UInt32.toNat_ofNat', Nat.add_mod_mod]
  exact Nat.mod_eq_of_lt h

theorem Address.next?_eq_some_iff_eq_add {a b : Address} :
    a.next? = some b ↔ a.toNat + 1 < UInt32.size ∧ b = a + UInt32.ofNat 1 := by
  rw [Address.next?_eq_some_iff]
  constructor
  · intro h
    have hlt : a.toNat + 1 < UInt32.size := h ▸ b.toNat_lt_size
    exact ⟨hlt, UInt32.toNat_inj.1 (h.trans (Address.toNat_add_ofNat hlt).symm)⟩
  · rintro ⟨hlt, rfl⟩
    exact Address.toNat_add_ofNat hlt

/-! ## Numbers that fit a field -/

/-- Whether a number has `bits` binary digits or fewer. -/
def fitsUnsigned (bits n : Nat) : Bool :=
  n < 1 <<< bits

/-- Whether a number has a two's complement form of `bits` bits. -/
def fitsSigned (bits : Nat) (n : Int) : Bool :=
  let half : Nat := 1 <<< (bits - 1)
  n < half && -(half : Int) ≤ n

end FlaglessAsm
