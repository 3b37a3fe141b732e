import FlaglessAsm.Instruction.Decode
import Mathlib.Algebra.Ring.Int.Defs
import Mathlib.Algebra.Ring.Nat

/-!
# Words and the instructions they hold

Encoding an instruction lays its fields side by side; decoding a word looks at some of its bits.
Both are compared as numbers: the word of an instruction is a sum of its fields times powers of two,
from which the fields can be read off by division.

## What is here

* `BitString.value_ofFields_lt`: a row of fields spells a number of its width.
* `Instruction.encode_eq_ok_iff`: which instructions have words, and the numbers these are.
* `decode_of_encode_eq_ok`: the word of an instruction decodes to it, or is the no-op.
-/

set_option autoImplicit false

namespace FlaglessAsm

/-! ## Rows of fields -/

namespace BitString

theorem value_append_lt {b : BitString} (h : b.value < 2 ^ b.width) (f : Field) :
    (b.append f).value < 2 ^ (b.append f).width := by
  simp only [append, Nat.shiftLeft_eq, Nat.one_mul, Nat.pow_add]
  have hmod : f.value % 2 ^ min f.width 32 < 2 ^ min f.width 32 := Nat.mod_lt _ (Nat.two_pow_pos _)
  calc b.value * 2 ^ min f.width 32 + f.value % 2 ^ min f.width 32
      < (b.value + 1) * 2 ^ min f.width 32 := by rw [Nat.succ_mul]; omega
    _ ≤ 2 ^ b.width * 2 ^ min f.width 32 := Nat.mul_le_mul_right _ h

/-- A row of fields spells a number of its width. -/
theorem value_ofFields_lt (fields : List Field) :
    (ofFields fields).value < 2 ^ (ofFields fields).width := by
  have hfold (b : BitString) (h : b.value < 2 ^ b.width) :
      (fields.foldl append b).value < 2 ^ (fields.foldl append b).width := by
    induction fields generalizing b with
    | nil => exact h
    | cons f fields ih => exact ih _ (value_append_lt h f)
  exact hfold empty (by decide)

end BitString

/-! ## The numbers of instructions -/

/-- The numbers that fit a field of two's complement. -/
theorem fitsSigned_iff {bits : Nat} {d : Int} :
    fitsSigned bits d = true ↔ -2 ^ (bits - 1) ≤ d ∧ d < 2 ^ (bits - 1) := by
  simp [fitsSigned, Nat.shiftLeft_eq, and_comm]

namespace Instruction

theorem width_ofFields_fields (i : Instruction Int) : (BitString.ofFields i.fields).width = 32 := by
  rcases i with _ | ⟨op, rd, rn, _ | _⟩ | _ | ⟨_ | _ | _, _⟩ | _ <;> rfl

/-- The number that the fields of an instruction spell. -/
def bits (i : Instruction Int) : Nat :=
  (BitString.ofFields i.fields).value

theorem bits_lt (i : Instruction Int) : i.bits < UInt32.size := by
  have h := BitString.value_ofFields_lt i.fields
  rwa [width_ofFields_fields] at h

/-- The operands of an instruction fit their fields. -/
def InRange : Instruction Int → Prop
  | .alu _ _ _ (.immediate v) => v.toNat < 2 ^ 8
  | .transfer _ _ _ offset _ => offset.natAbs < 2 ^ 8
  | .branch condition d =>
    -2 ^ (condition.displacementBits - 1) ≤ d ∧ d < 2 ^ (condition.displacementBits - 1)
  | _ => True

theorem check_eq_ok_iff {i : Instruction Int} : i.check = .ok () ↔ i.InRange := by
  rcases i with _ | ⟨op, rd, rn, _ | _⟩ | _ | ⟨condition, d⟩ | _
  case branch => simp [check, InRange, ← fitsSigned_iff]
  all_goals simp [check, InRange, fitsUnsigned, immediateBits, Nat.shiftLeft_eq]

/-- **An instruction has a word exactly if its operands are in range.** -/
theorem encode_eq_ok_iff {i : Instruction Int} {w : Word} :
    i.encode = .ok w ↔ i.InRange ∧ w.toNat = i.bits := by
  rw [encode, BitString.toWord, if_pos (width_ofFields_fields i), ← check_eq_ok_iff]
  cases i.check with
  | error e => simp
  | ok =>
    simp only [Except.ok.injEq, true_and]
    change UInt32.ofNat i.bits = w ↔ _
    rw [← UInt32.toNat_inj, UInt32.toNat_ofNat_of_lt' i.bits_lt, eq_comm]

theorem exists_encode_iff {i : Instruction Int} : (∃ w, i.encode = .ok w) ↔ i.InRange := by
  refine ⟨fun ⟨w, h⟩ => (encode_eq_ok_iff.1 h).1, fun h => ⟨UInt32.ofNat i.bits, ?_⟩⟩
  exact encode_eq_ok_iff.2 ⟨h, UInt32.toNat_ofNat_of_lt' i.bits_lt⟩

theorem bits_alu (op : AluOp) (rd rn : Register) (source : Source) :
    (alu op rd rn source).bits = 0b1110 * 2 ^ 28 + (sourceKindField source).value * 2 ^ 25
      + op.opcode * 2 ^ 21 + rn.code.val * 2 ^ 16 + rd.code.val * 2 ^ 12
      + (match source with
        | .immediate v => v.toNat % 2 ^ 8
        | .register r => r.code.val) := by
  have hop : op.opcode < 2 ^ 4 := by cases op <;> decide
  cases source <;>
    simp [bits, fields, BitString.ofFields, BitString.append, BitString.empty, executeAlways,
      registerField, sourceKindField, sourceFields, immediateBits, Nat.shiftLeft_eq] <;> omega

theorem bits_transfer (access : Access) (value base : Register) (offset : Int) (writeback : Bool) :
    (transfer access value base offset writeback).bits = 0b1110 * 2 ^ 28 + 0b01 * 2 ^ 26
      + (6 + (decide (0 ≤ offset)).toNat) * 2 ^ 23 + access.mode writeback * 2 ^ 20
      + base.code.val * 2 ^ 16 + value.code.val * 2 ^ 12 + offset.natAbs % 2 ^ 8 := by
  have hmode : access.mode writeback < 2 ^ 3 := by cases access <;> cases writeback <;> decide
  have hup : (decide (0 ≤ offset)).toNat < 2 := Bool.toNat_lt _
  simp [bits, fields, BitString.ofFields, BitString.append, BitString.empty, executeAlways,
    registerField, TransferFlags.ofOffset, TransferFlags.bits, immediateBits, Nat.shiftLeft_eq]
  omega

theorem bits_branch (condition : Condition) (d : Int) :
    (branch condition d).bits = 0b1110 * 2 ^ 28
      + (match condition with
        | .always => 0b1010 * 2 ^ 24
        | .ifZero r => 0b10110000 * 2 ^ 20 + r.code.val * 2 ^ 16
        | .ifNonZero r => 0b10110001 * 2 ^ 20 + r.code.val * 2 ^ 16)
      + (d % 2 ^ condition.displacementBits).toNat := by
  cases condition <;>
    simp [bits, fields, BitString.ofFields, BitString.append, BitString.empty, executeAlways,
      registerField, signedField, Condition.displacementBits, Nat.shiftLeft_eq] <;> omega

theorem bits_exchange (rm : Register) :
    (exchange rm).bits = 0b1110 * 2 ^ 28 + exchangePattern * 2 ^ 4 + rm.code.val := by
  simp [bits, fields, BitString.ofFields, BitString.append, BitString.empty, executeAlways,
    registerField, exchangePattern, Nat.shiftLeft_eq]

end Instruction

/-! ## Reading fields back -/

theorem bitsAt_eq (w : Word) (low width : Nat) :
    bitsAt w low width = w.toNat / 2 ^ low % 2 ^ width := by
  rw [bitsAt, Nat.shiftRight_eq_div_pow, Nat.shiftLeft_eq, Nat.one_mul]

theorem registerAt_eq {w : Word} {low : Nat} {r : Register} (h : bitsAt w low 4 = r.code.val) :
    registerAt w low = r := by
  obtain ⟨code⟩ := r
  simp [registerAt, Register.ofBits, h, Nat.mod_eq_of_lt code.isLt]

/-- A number that fits a field of two's complement is read back from it. -/
theorem signedBits_eq {w : Word} {d : Int} {bits : Nat} (hfits : -2 ^ bits ≤ d ∧ d < 2 ^ bits)
    (h : bitsAt w 0 (bits + 1) = (d % 2 ^ (bits + 1)).toNat) : signedBits w (bits + 1) = d := by
  have hpow : ((1 <<< (bits + 1) : Nat) : Int) = 2 ^ bits * 2 := by
    simp [Nat.shiftLeft_eq, Int.pow_succ]
  have hpos : (0 : Int) ≤ d % 2 ^ (bits + 1) :=
    Int.emod_nonneg _ (Int.ne_of_gt (Int.pow_pos (by decide)))
  rw [signedBits, h, Int.toNat_of_nonneg hpos, Int.pow_succ, ← hpow, Int.emod_bmod]
  apply Int.bmod_eq_of_le_mul_two <;> omega

/-! ## Round trips -/

section
variable {w : Word}

theorem ne_nopWord {n : Nat} (hw : w.toNat = n) (hn : n ≠ 0xE1A00000) : w ≠ nopWord := by
  rintro rfl
  exact hn hw.symm

/-- What can be read off the word of a conditional branch; `k` tells the two conditions apart. -/
theorem fields_of_conditionalBranch {k : Nat} {r : Register} {d : Int} (hk : k < 2)
    (hfits : -2 ^ 11 ≤ d ∧ d < 2 ^ 11)
    (hw : w.toNat = 0b1110 * 2 ^ 28 + ((0b10110000 + k) * 2 ^ 20 + r.code.val * 2 ^ 16)
      + (d % 2 ^ 12).toNat) :
    w ≠ nopWord ∧ bitsAt w 28 4 = 0b1110 ∧ bitsAt w 4 24 ≠ exchangePattern ∧
      bitsAt w 24 4 ≠ 0b1010 ∧ bitsAt w 20 8 = 0b10110000 + k ∧ registerAt w 16 = r ∧
      signedBits w 12 = d := by
  have hd : (d % 2 ^ 12).toNat < 2 ^ 12 := by omega
  have hr := r.code.isLt
  refine ⟨ne_nopWord hw (by omega), ?_, ?_, ?_, ?_, registerAt_eq ?_, signedBits_eq hfits ?_⟩ <;>
    rw [bitsAt_eq]
  case refine_2 => rw [exchangePattern]; omega
  all_goals omega

theorem decode_branch {condition : Condition} {d : Int}
    (hfits : (Instruction.branch condition d).InRange)
    (hw : w.toNat = (Instruction.branch condition d).bits) :
    w ≠ nopWord ∧ decode w = some (.branch condition d) := by
  rw [Instruction.bits_branch] at hw
  cases condition with
  | always =>
    simp only [Condition.displacementBits, Instruction.InRange] at hw hfits
    have hd : (d % 2 ^ 16).toNat < 2 ^ 16 := by omega
    have hnop : w ≠ nopWord := ne_nopWord hw (by omega)
    refine ⟨hnop, ?_⟩
    rw [decode, if_neg (by rw [bitsAt_eq]; omega), if_neg hnop,
      if_neg (by rw [bitsAt_eq, exchangePattern]; omega), if_pos (by rw [bitsAt_eq]; omega),
      signedBits_eq hfits (by rw [bitsAt_eq]; omega)]
  | ifZero r =>
    obtain ⟨hnop, halways, hexchange, hbranch, hkind, hregister, hsigned⟩ :=
      fields_of_conditionalBranch (k := 0) (by decide) hfits hw
    refine ⟨hnop, ?_⟩
    rw [decode, if_neg (not_not_intro halways), if_neg hnop, if_neg hexchange, if_neg hbranch,
      if_pos hkind, hregister, hsigned]
  | ifNonZero r =>
    obtain ⟨hnop, halways, hexchange, hbranch, hkind, hregister, hsigned⟩ :=
      fields_of_conditionalBranch (k := 1) (by decide) hfits hw
    refine ⟨hnop, ?_⟩
    rw [decode, if_neg (not_not_intro halways), if_neg hnop, if_neg hexchange, if_neg hbranch,
      if_neg (by rw [hkind]; decide), if_pos hkind, hregister, hsigned]

theorem decode_exchange {rm : Register} (hw : w.toNat = (Instruction.exchange rm).bits) :
    w ≠ nopWord ∧ decode w = some (.exchange rm) := by
  rw [Instruction.bits_exchange, exchangePattern] at hw
  have hr := rm.code.isLt
  have hnop : w ≠ nopWord := ne_nopWord hw (by omega)
  have hregister : registerAt w 0 = rm := registerAt_eq (by rw [bitsAt_eq]; omega)
  refine ⟨hnop, ?_⟩
  rw [decode, if_neg (by rw [bitsAt_eq]; omega), if_neg hnop,
    if_pos (by rw [bitsAt_eq, exchangePattern]; omega), hregister]

theorem decode_transfer {access : Access} {value base : Register} {offset : Int} {writeback : Bool}
    (hfits : (Instruction.transfer access value base offset writeback).InRange)
    (hw : w.toNat = (Instruction.transfer access value base offset writeback).bits) :
    w ≠ nopWord ∧ decode w = some (.transfer access value base offset writeback) := by
  rw [Instruction.bits_transfer] at hw
  rw [Instruction.InRange] at hfits
  have hbase := base.code.isLt
  have hvalue := value.code.isLt
  have hmode : access.mode writeback < 4 := by cases access <;> cases writeback <;> decide
  have hup : (decide (0 ≤ offset)).toNat < 2 := Bool.toNat_lt _
  have hnop : w ≠ nopWord := ne_nopWord hw (by omega)
  refine ⟨hnop, ?_⟩
  rw [decode, if_neg (by rw [bitsAt_eq]; omega), if_neg hnop,
    if_neg (by rw [bitsAt_eq, exchangePattern]; omega), if_neg (by rw [bitsAt_eq]; omega),
    if_neg (by rw [bitsAt_eq]; omega), if_neg (by rw [bitsAt_eq]; omega),
    if_neg (by rw [bitsAt_eq]; omega), if_pos (by rw [bitsAt_eq]; omega), decodeTransfer]
  have hbits : bitsAt w 20 3 = access.mode writeback := by rw [bitsAt_eq]; omega
  have hvalueAt : registerAt w 12 = value := registerAt_eq (by rw [bitsAt_eq]; omega)
  have hbaseAt : registerAt w 16 = base := registerAt_eq (by rw [bitsAt_eq]; omega)
  have hmagnitude : bitsAt w 0 8 = offset.natAbs := by rw [bitsAt_eq]; omega
  have hsign : bitsAt w 23 1 = (decide (0 ≤ offset)).toNat := by rw [bitsAt_eq]; omega
  rw [hbits, Access.ofMode?_mode]
  simp only [hvalueAt, hbaseAt, hmagnitude, TransferFlags.ofWord, hsign]
  by_cases hoffset : 0 ≤ offset
  · rw [Int.natAbs_of_nonneg hoffset]
    simp [hoffset]
  · rw [Int.ofNat_natAbs_of_nonpos (by omega), Int.neg_neg]
    simp [hoffset]

/-- The word of an arithmetic instruction; `k` tells its two sources apart. -/
theorem decode_of_arithmetic {op : AluOp} {rd rn : Register} {k low : Nat} (hk : k < 2)
    (hlow : low < 2 ^ 8)
    (hw : w.toNat = 0b1110 * 2 ^ 28 + k * 2 ^ 25 + op.opcode * 2 ^ 21 + rn.code.val * 2 ^ 16
      + rd.code.val * 2 ^ 12 + low) (hnop : w ≠ nopWord) :
    decode w = some (.alu op rd rn
      (if k = 1 then .immediate (UInt32.ofNat low) else .register (registerAt w 0))) := by
  -- Nine is the opcode that the pattern of a jump to a register would have.
  have hop : op.opcode < 2 ^ 4 ∧ op.opcode ≠ 9 := by cases op <;> decide
  have hrd := rd.code.isLt
  have hrn := rn.code.isLt
  have hopcode : bitsAt w 21 4 = op.opcode := by rw [bitsAt_eq]; omega
  have hkind : bitsAt w 25 1 = k := by rw [bitsAt_eq]; omega
  have hsource : bitsAt w 0 8 = low := by rw [bitsAt_eq]; omega
  have hrdAt : registerAt w 12 = rd := registerAt_eq (by rw [bitsAt_eq]; omega)
  have hrnAt : registerAt w 16 = rn := registerAt_eq (by rw [bitsAt_eq]; omega)
  rw [decode, if_neg (by rw [bitsAt_eq]; omega), if_neg hnop,
    if_neg (by rw [bitsAt_eq, exchangePattern]; omega), if_neg (by rw [bitsAt_eq]; omega),
    if_neg (by rw [bitsAt_eq]; omega), if_neg (by rw [bitsAt_eq]; omega),
    if_pos (by rw [bitsAt_eq]; omega), decodeArithmetic, if_neg (by rw [bitsAt_eq]; omega),
    AluOp.ofOpcode?_eq_some_iff.2 hopcode]
  simp only
  rw [if_neg (by rw [bitsAt_eq]; omega), hkind, hsource, hrdAt, hrnAt]

theorem decode_alu {op : AluOp} {rd rn : Register} {source : Source}
    (hrange : (Instruction.alu op rd rn source).InRange)
    (hw : w.toNat = (Instruction.alu op rd rn source).bits) (hnop : w ≠ nopWord) :
    decode w = some (.alu op rd rn source) := by
  rw [Instruction.bits_alu] at hw
  cases source with
  | immediate v =>
    have hv : v.toNat % 2 ^ 8 = v.toNat := Nat.mod_eq_of_lt hrange
    rw [decode_of_arithmetic (k := 1) (by decide) (Nat.mod_lt _ (by decide)) hw hnop, if_pos rfl,
      hv, UInt32.ofNat_toNat]
  | register r =>
    simp only [Instruction.sourceKindField] at hw
    have hr := r.code.isLt
    have hregister : registerAt w 0 = r := registerAt_eq (by rw [bitsAt_eq]; omega)
    rw [decode_of_arithmetic (k := 0) (by decide) (Nat.lt_trans hr (by decide)) hw hnop,
      if_neg (by decide), hregister]

end

/-- **The word of an instruction decodes to it**, unless it is the word of the no-op. -/
theorem decode_of_encode_eq_ok {i : Instruction Int} {w : Word} (h : i.encode = .ok w) :
    decode w = some (if w = nopWord then .nop else i) := by
  obtain ⟨hrange, hw⟩ := Instruction.encode_eq_ok_iff.1 h
  cases i with
  | nop =>
    have hnop : w = nopWord := UInt32.toNat_inj.1 hw
    rw [if_pos hnop, hnop]
    rfl
  | alu op rd rn source =>
    by_cases hnop : w = nopWord
    · rw [if_pos hnop, hnop]
      rfl
    · rw [if_neg hnop, decode_alu hrange hw hnop]
  | transfer access value base offset writeback =>
    obtain ⟨hnop, hdecode⟩ := decode_transfer hrange hw
    rw [if_neg hnop, hdecode]
  | branch condition d =>
    obtain ⟨hnop, hdecode⟩ := decode_branch hrange hw
    rw [if_neg hnop, hdecode]
  | exchange rm =>
    obtain ⟨hnop, hdecode⟩ := decode_exchange hw
    rw [if_neg hnop, hdecode]

end FlaglessAsm
