import FlaglessAsm.Proofs.Encoding

/-!
# Rows of fields, read back

A word is written as a row of fields.  The other way round, a field is found in a word by the total
size of the fields behind it.  So two rows of the same sizes can be compared field by field, and a
word is the word of an instruction exactly if each of its fields is the one that the layout of the
instruction asks for.

## What is here

* `Field.size`, `Field.bits`, `totalSize`: how many bits of a field count, and what they spell.
* `BitString.foldl_append`: the width and the number of a row behind another one.
* `HasFields`: a word has given fields at its low end.
* `BitString.value_ofFields_eq_iff`: a row spells the low end of a word if the word has its fields.
* `Instruction.encode_eq_ok_iff_hasFields`: the word of an instruction, field by field.
-/

set_option autoImplicit false

namespace FlaglessAsm

/-! ## The number of a row -/

/-- How many bits of a field count. -/
def Field.size (f : Field) : Nat :=
  min f.width 32

/-- The number that the bits of a field spell. -/
def Field.bits (f : Field) : Nat :=
  f.value % 2 ^ f.size

/-- How many bits a row of fields has. -/
def totalSize (fields : List Field) : Nat :=
  (fields.map Field.size).sum

theorem totalSize_cons (f : Field) (fields : List Field) :
    totalSize (f :: fields) = f.size + totalSize fields := by
  rw [totalSize, List.map_cons, List.sum_cons, totalSize]

namespace BitString

theorem append_eq (b : BitString) (f : Field) :
    b.append f = ⟨b.width + f.size, b.value * 2 ^ f.size + f.bits⟩ := by
  rw [append, Nat.shiftLeft_eq, Nat.shiftLeft_eq, Nat.one_mul]
  rfl

/-- A row of fields behind other bits. -/
theorem foldl_append (b : BitString) (fields : List Field) :
    fields.foldl append b = ⟨b.width + totalSize fields,
      b.value * 2 ^ totalSize fields + (ofFields fields).value⟩ := by
  induction fields generalizing b with
  | nil => simp [totalSize, ofFields, empty]
  | cons f fields ih =>
    have hrow : ofFields (f :: fields) = fields.foldl append (empty.append f) := rfl
    rw [hrow, List.foldl_cons, ih, ih, append_eq, append_eq, totalSize_cons]
    simp [empty, Nat.add_mul, Nat.mul_assoc, Nat.pow_add, Nat.add_assoc]

theorem width_ofFields (fields : List Field) : (ofFields fields).width = totalSize fields := by
  rw [ofFields, foldl_append]
  exact Nat.zero_add _

theorem value_ofFields_cons (f : Field) (fields : List Field) :
    (ofFields (f :: fields)).value
      = f.bits * 2 ^ totalSize fields + (ofFields fields).value := by
  have hrow : ofFields (f :: fields) = fields.foldl append (empty.append f) := rfl
  rw [hrow, foldl_append, append_eq]
  simp [empty]

end BitString

/-! ## The fields of a word -/

/-- The low end of a word has the fields of a row, each in its place. -/
def HasFields (w : Word) : List Field → Prop
  | [] => True
  | f :: fields => bitsAt w (totalSize fields) f.size = f.bits ∧ HasFields w fields

theorem bitsAt_lt (w : Word) (low width : Nat) : bitsAt w low width < 2 ^ width := by
  rw [bitsAt_eq]
  exact Nat.mod_lt _ (Nat.two_pow_pos width)

/-- The low end of a word is one field in front of a shorter low end. -/
theorem toNat_mod_add (w : Word) (low width : Nat) :
    w.toNat % 2 ^ (width + low) = bitsAt w low width * 2 ^ low + w.toNat % 2 ^ low := by
  rw [Nat.add_comm width, Nat.pow_add, Nat.mod_mul, bitsAt_eq, Nat.mul_comm, Nat.add_comm]

/-- Two digits of different weight are compared one by one. -/
theorem mul_add_eq_mul_add_iff {a b c d n : Nat} (hb : b < n) (hd : d < n) :
    a * n + b = c * n + d ↔ a = c ∧ b = d := by
  constructor
  · intro h
    have hdiv := congrArg (· / n) h
    have hmod := congrArg (· % n) h
    have hpos : 0 < n := Nat.zero_lt_of_lt hb
    simp only [Nat.mul_comm _ n, Nat.mul_add_div hpos, Nat.mul_add_mod, Nat.div_eq_of_lt hb,
      Nat.div_eq_of_lt hd, Nat.mod_eq_of_lt hb, Nat.mod_eq_of_lt hd] at hdiv hmod
    exact ⟨hdiv, hmod⟩
  · rintro ⟨rfl, rfl⟩
    rfl

/-- **A row of fields spells the low end of a word exactly if the word has these fields.** -/
theorem BitString.value_ofFields_eq_iff (w : Word) (fields : List Field) :
    (ofFields fields).value = w.toNat % 2 ^ totalSize fields ↔ HasFields w fields := by
  induction fields with
  | nil => simp [HasFields, ofFields, empty, totalSize, Nat.mod_one]
  | cons f fields ih =>
    have hvalue : (ofFields fields).value < 2 ^ totalSize fields := by
      have h := value_ofFields_lt fields
      rwa [width_ofFields] at h
    have hrest : w.toNat % 2 ^ totalSize fields < 2 ^ totalSize fields :=
      Nat.mod_lt _ (Nat.two_pow_pos _)
    rw [value_ofFields_cons, totalSize_cons, toNat_mod_add,
      mul_add_eq_mul_add_iff hvalue hrest, ih, HasFields, eq_comm]

/-! ## The layouts of instructions -/

theorem registerAt_eq_iff {w : Word} {low : Nat} {r : Register} :
    registerAt w low = r ↔ bitsAt w low 4 = r.code.val := by
  refine ⟨?_, registerAt_eq⟩
  rintro rfl
  exact (Nat.mod_eq_of_lt (bitsAt_lt w low 4)).symm

theorem Register.code_mod (r : Register) : r.code.val % 16 = r.code.val :=
  Nat.mod_eq_of_lt r.code.isLt

theorem TransferFlags.ofWord_eq_iff {w : Word} {flags : TransferFlags} :
    ofWord w = flags ↔ bitsAt w 23 3 = flags.bits := by
  have hsplit : bitsAt w 23 3 = 4 * bitsAt w 25 1 + 2 * bitsAt w 24 1 + bitsAt w 23 1 := by
    simp only [bitsAt_eq]
    omega
  have h25 := bitsAt_lt w 25 1
  have h24 := bitsAt_lt w 24 1
  have h23 := bitsAt_lt w 23 1
  obtain ⟨immediate, preIndex, up⟩ := flags
  rw [hsplit]
  cases immediate <;> cases preIndex <;> cases up <;> simp [ofWord, bits] <;> omega

theorem Access.ofMode?_eq_some_iff {n : Nat} {access : Access} {writeback : Bool} :
    ofMode? n = some (access, writeback) ↔ n = access.mode writeback := by
  constructor
  · intro h
    unfold ofMode? at h
    split at h <;> simp at h <;> obtain ⟨rfl, rfl⟩ := h <;> rfl
  · rintro rfl
    exact ofMode?_mode access writeback

namespace Instruction

/-- **A word is that of an instruction exactly if the operands are in range and every field of the
word is the one of the layout.** -/
theorem encode_eq_ok_iff_hasFields {i : Instruction Int} {w : Word} :
    i.encode = .ok w ↔ i.InRange ∧ HasFields w i.fields := by
  have hsize : totalSize i.fields = 32 := by
    rw [← BitString.width_ofFields, width_ofFields_fields]
  rw [encode_eq_ok_iff, ← BitString.value_ofFields_eq_iff, hsize, Nat.mod_eq_of_lt w.toNat_lt,
    eq_comm (a := w.toNat)]
  rfl

section
variable {w : Word}

theorem hasFields_alu_iff {op : AluOp} {rd rn : Register} {source : Source} :
    HasFields w (alu op rd rn source).fields ↔
      bitsAt w 28 4 = 0b1110 ∧ bitsAt w 26 2 = 0b00 ∧
        bitsAt w 25 1 = (sourceKindField source).value ∧ bitsAt w 21 4 = op.opcode ∧
        bitsAt w 20 1 = 0 ∧ registerAt w 16 = rn ∧ registerAt w 12 = rd ∧ bitsAt w 8 4 = 0 ∧
        HasFields w (sourceFields source) := by
  have hop : op.opcode % 16 = op.opcode := by cases op <;> rfl
  cases source <;>
    simp [HasFields, fields, totalSize, Field.size, Field.bits, executeAlways, registerField,
      sourceKindField, sourceFields, immediateBits, hop, Register.code_mod,
      registerAt_eq_iff]

theorem hasFields_transfer_iff {access : Access} {value base : Register} {offset : Int}
    {writeback : Bool} :
    HasFields w (transfer access value base offset writeback).fields ↔
      bitsAt w 28 4 = 0b1110 ∧ bitsAt w 26 2 = 0b01 ∧
        TransferFlags.ofWord w = .ofOffset offset ∧ bitsAt w 20 3 = access.mode writeback ∧
        registerAt w 16 = base ∧ registerAt w 12 = value ∧ bitsAt w 8 4 = 0 ∧
        bitsAt w 0 8 = offset.natAbs % 2 ^ 8 := by
  have hmode : access.mode writeback % 8 = access.mode writeback := by
    cases access <;> cases writeback <;> rfl
  have hflags : (TransferFlags.ofOffset offset).bits % 8
      = (TransferFlags.ofOffset offset).bits := by
    cases hup : decide (0 ≤ offset) <;> simp [TransferFlags.ofOffset, TransferFlags.bits, hup]
  simp [HasFields, fields, totalSize, Field.size, Field.bits, executeAlways, registerField,
    immediateBits, hmode, hflags, Register.code_mod, registerAt_eq_iff,
    TransferFlags.ofWord_eq_iff]

theorem hasFields_immediate_iff {v : UInt32} :
    HasFields w (sourceFields (.immediate v)) ↔ bitsAt w 0 8 = v.toNat % 2 ^ 8 := by
  simp [HasFields, sourceFields, totalSize, Field.size, Field.bits, immediateBits]

theorem hasFields_register_iff {r : Register} :
    HasFields w (sourceFields (.register r)) ↔ bitsAt w 4 4 = 0 ∧ registerAt w 0 = r := by
  simp [HasFields, sourceFields, totalSize, Field.size, Field.bits, registerField,
    Register.code_mod, registerAt_eq_iff]

theorem hasFields_always_iff {d : Int} :
    HasFields w (branch .always d).fields ↔ bitsAt w 28 4 = 0b1110 ∧ bitsAt w 24 4 = 0b1010 ∧
      bitsAt w 16 8 = 0 ∧ bitsAt w 0 16 = (d % 2 ^ 16).toNat := by
  -- The layout writes the eight zeros as two fields.
  have hzero : bitsAt w 16 8 = 0 ↔ bitsAt w 20 4 = 0 ∧ bitsAt w 16 4 = 0 := by
    simp only [bitsAt_eq]
    omega
  have hd : (d % 65536).toNat % 65536 = (d % 65536).toNat := by omega
  simp [HasFields, fields, totalSize, Field.size, Field.bits, executeAlways, signedField, hd, hzero,
    and_assoc]

/-- The layout that both kinds of conditional branch have, told apart by `code`. -/
theorem hasFields_conditional_iff {code : Nat} (hcode : code < 2 ^ 8) {r : Register} {d : Int} :
    HasFields w [executeAlways, ⟨code, 8⟩, registerField r, ⟨0, 4⟩, signedField d 12] ↔
      bitsAt w 28 4 = 0b1110 ∧ bitsAt w 20 8 = code ∧ registerAt w 16 = r ∧
        bitsAt w 12 4 = 0 ∧ bitsAt w 0 12 = (d % 2 ^ 12).toNat := by
  have hd : (d % 4096).toNat % 4096 = (d % 4096).toNat := by omega
  have hmod : code % 256 = code := Nat.mod_eq_of_lt hcode
  simp [HasFields, totalSize, Field.size, Field.bits, executeAlways, registerField, signedField, hd,
    hmod, Register.code_mod, registerAt_eq_iff]

theorem hasFields_exchange_iff {rm : Register} :
    HasFields w (exchange rm).fields ↔
      bitsAt w 28 4 = 0b1110 ∧ bitsAt w 4 24 = exchangePattern ∧ registerAt w 0 = rm := by
  simp [HasFields, fields, totalSize, Field.size, Field.bits, executeAlways, registerField,
    exchangePattern, Register.code_mod, registerAt_eq_iff]

end

end Instruction
end FlaglessAsm
