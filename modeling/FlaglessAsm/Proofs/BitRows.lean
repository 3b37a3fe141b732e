import FlaglessAsm.Proofs.FieldRows

/-!
# The bits of a row of fields

A row of fields is kept as a number and a width.  Bit by bit it is what it is meant to be: the bits
of its fields one behind the other, most significant first.  So a row of 32 bits is a word whose
bits are those of the fields, and each field can be cut out of it again.  Any row of fields will do,
with fields that have no bits, fields that are given more bits than a word has, and values that are
too large for their field.

## What is here

* `bitRow`: the low bits of a number, most significant first.
* `bitRow_add`: the bits of a number in two parts.
* `BitString.bitRow_value_ofFields`: the bits of a row are those of its fields.
* `HasFields.bitsAt_eq`: a field in the middle of a row.
* `word_spells_fields`: the word of a row of fields.
-/

set_option autoImplicit false

namespace FlaglessAsm

/-! ## The bits of a number -/

/-- The low `width` bits of a number, most significant first. -/
def bitRow : (width n : Nat) → List Bool
  | 0, _ => []
  | width + 1, n => n.testBit width :: bitRow width n

/-- Bits that are cut off do not count. -/
theorem bitRow_mod {width k : Nat} (h : width ≤ k) (n : Nat) :
    bitRow width (n % 2 ^ k) = bitRow width n := by
  induction width with
  | zero => rfl
  | succ width ih =>
    rw [bitRow, bitRow, ih (by omega), Nat.testBit_mod_two_pow, decide_eq_true (by omega),
      Bool.true_and]

/-- The bits of a number are those of its upper part, followed by those of its lower part. -/
theorem bitRow_add (upper lower n : Nat) :
    bitRow (upper + lower) n = bitRow upper (n / 2 ^ lower) ++ bitRow lower n := by
  induction upper with
  | zero => rw [Nat.zero_add, bitRow, List.nil_append]
  | succ upper ih =>
    rw [Nat.succ_add, bitRow, bitRow, ih, Nat.testBit_div_two_pow, List.cons_append,
      Nat.add_comm upper]

/-! ## The bits of a row -/

/-- **The bits of a row are those of its fields**, one field behind the other. -/
theorem BitString.bitRow_value_ofFields (fields : List Field) :
    bitRow (totalSize fields) (ofFields fields).value
      = fields.flatMap fun f => bitRow f.size f.value := by
  induction fields with
  | nil => rfl
  | cons f fields ih =>
    have hlower : (ofFields fields).value < 2 ^ totalSize fields := by
      have h := value_ofFields_lt fields
      rwa [width_ofFields] at h
    have hpos : 0 < 2 ^ totalSize fields := Nat.two_pow_pos _
    rw [totalSize_cons, bitRow_add, value_ofFields_cons, List.flatMap_cons]
    congr 1
    · rw [Nat.mul_comm, Nat.mul_add_div hpos, Nat.div_eq_of_lt hlower, Nat.add_zero, Field.bits,
        bitRow_mod (Nat.le_refl _)]
    · rw [← bitRow_mod (Nat.le_refl _), Nat.mul_comm, Nat.mul_add_mod, bitRow_mod (Nat.le_refl _),
        ih]

/-- A field in a row is found behind the fields that follow it. -/
theorem HasFields.bitsAt_eq {w : Word} {front back : List Field} {f : Field}
    (h : HasFields w (front ++ f :: back)) : bitsAt w (totalSize back) f.size = f.bits := by
  induction front with
  | nil => exact h.1
  | cons g front ih => exact ih h.2

/-! ## The word of a row -/

namespace BitString

variable {fields : List Field} {w : Word}

theorem toWord_ofFields_eq_ok_iff :
    (ofFields fields).toWord = .ok w ↔
      totalSize fields = 32 ∧ w.toNat = (ofFields fields).value := by
  rw [toWord, width_ofFields]
  split
  · next h =>
    have hlt : (ofFields fields).value < UInt32.size := by
      have h' := value_ofFields_lt fields
      rwa [width_ofFields, h] at h'
    rw [Except.ok.injEq, ← UInt32.toNat_inj, UInt32.toNat_ofNat_of_lt' hlt]
    simp [h, eq_comm]
  · next h => simp [h]

/-- The word of a row has its fields. -/
theorem hasFields_of_toWord (h : (ofFields fields).toWord = .ok w) : HasFields w fields := by
  obtain ⟨hsize, hw⟩ := toWord_ofFields_eq_ok_iff.1 h
  rw [← value_ofFields_eq_iff, ← hw, hsize]
  exact (Nat.mod_eq_of_lt w.toNat_lt_size).symm

end BitString

/-- **A row of fields is a word exactly if it has 32 bits**, and any other row is refused with the
number of its bits.  The word has the bits of the fields, one field behind the other, and each field
is found in it behind the fields that follow. -/
theorem word_spells_fields (fields : List Field) :
    ((∃ w, (BitString.ofFields fields).toWord = .ok w) ↔ totalSize fields = 32) ∧
    (totalSize fields ≠ 32 →
      (BitString.ofFields fields).toWord = .error (.width (totalSize fields))) ∧
    ∀ w, (BitString.ofFields fields).toWord = .ok w →
      bitRow 32 w.toNat = (fields.flatMap fun f => bitRow f.size f.value) ∧
      ∀ front f back, fields = front ++ f :: back →
        bitsAt w (totalSize back) f.size = f.value % 2 ^ f.size := by
  refine ⟨⟨?_, fun hsize => ?_⟩, fun hsize => ?_, fun w hw => ⟨?_, ?_⟩⟩
  · rintro ⟨w, hw⟩
    exact (BitString.toWord_ofFields_eq_ok_iff.1 hw).1
  · rw [BitString.toWord, BitString.width_ofFields, if_pos hsize]
    exact ⟨_, rfl⟩
  · rw [BitString.toWord, BitString.width_ofFields, if_neg hsize]
  · obtain ⟨hsize, hvalue⟩ := BitString.toWord_ofFields_eq_ok_iff.1 hw
    rw [hvalue, ← hsize, BitString.bitRow_value_ofFields]
  · rintro front f back rfl
    exact (BitString.hasFields_of_toWord hw).bitsAt_eq

/-- A field of all ones that is cut down to four bits, one without bits, and one that is wider than
the word could be. -/
example : (BitString.ofFields [⟨0xffffffff, 4⟩, ⟨1, 0⟩, ⟨5, 28⟩]).toWord = .ok 0xf0000005 ∧
    (BitString.ofFields [⟨1, 40⟩, ⟨1, 1⟩]).toWord = .error (.width 33) :=
  ⟨rfl, rfl⟩

end FlaglessAsm
