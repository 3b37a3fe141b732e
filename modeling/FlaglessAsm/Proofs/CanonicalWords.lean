import FlaglessAsm.Proofs.FieldRows

/-!
# Instructions and their canonical words

Five layouts share the words of 32 bits, and decoding tells them apart by a cascade of tests.  Every
instruction in range is read back from its word, the one exception being the move of the zero
register to itself, whose word is the no-op.  The other way round is not exact: decoding skips some
bits, so several words stand for one instruction.  Encoding writes one of them, the canonical one.

## What is here

* `Instruction.idleMove`: the instruction that is read back as a no-op.
* `decode_undoes_encode`: which instructions have words, and what these words decode to.
* `ReadsAs`, `readsAs_of_decode`: what the bits of a word say about its instruction.
* `Canonical`: the skipped bits of a word are those that encoding writes.
* `encode_eq_iff_canonical`: encoding the instruction of a word gives that word exactly if it is
  canonical.
-/

set_option autoImplicit false

namespace FlaglessAsm

/-! ## From instructions to words and back -/

namespace Instruction

/-- The move of the zero register to itself. -/
def idleMove : Instruction Int :=
  .alu .mov .zero .zero (.register .zero)

/-- Encoding fails only where an operand is out of range. -/
theorem encode_eq_error_iff {i : Instruction Int} {e : EncodeError} :
    i.encode = .error e ↔ i.check = .error e := by
  rw [encode, BitString.toWord, if_pos (width_ofFields_fields i)]
  cases i.check <;> simp

/-- The fields of an instruction always add up to a word. -/
theorem encode_ne_width (i : Instruction Int) (bits : Nat) : i.encode ≠ .error (.width bits) := by
  rw [ne_eq, encode_eq_error_iff]
  rcases i with _ | ⟨op, rd, rn, v | r⟩ | ⟨access, value, base, offset, writeback⟩ | ⟨c, d⟩ | rm
  case alu.immediate | transfer | branch =>
    rw [check]
    split <;> simp
  all_goals simp [check]

/-- An arithmetic instruction with the number of the no-op moves the zero register to itself. -/
theorem eq_idleMove_of_bits {op : AluOp} {rd rn : Register} {source : Source}
    (h : (alu op rd rn source).bits = nopWord.toNat) : alu op rd rn source = idleMove := by
  have hnop : nopWord.toNat = 0b1110 * 2 ^ 28 + 13 * 2 ^ 21 := by decide
  have hop : op.opcode < 2 ^ 4 := by cases op <;> decide
  have hrd := rd.code.isLt
  have hrn := rn.code.isLt
  rw [bits_alu, hnop] at h
  cases source with
  | immediate v =>
    -- An immediate operand sets the bit above the opcode, which the no-op leaves clear.
    simp only [sourceKindField] at h
    omega
  | register r =>
    simp only [sourceKindField] at h
    have hr := r.code.isLt
    have hmov : op.opcode = AluOp.mov.opcode := by
      rw [AluOp.opcode]
      omega
    have hregister (s : Register) (hs : s.code.val = 0) : s = .zero := by
      obtain ⟨code⟩ := s
      exact congrArg Register.mk (Fin.ext hs)
    obtain rfl : op = .mov := by
      refine Option.some.inj ((AluOp.ofOpcode?_eq_some_iff.2 rfl).symm.trans ?_)
      exact AluOp.ofOpcode?_eq_some_iff.2 hmov
    rw [hregister rd (by omega), hregister rn (by omega), hregister r (by omega), idleMove]

theorem encode_idleMove : idleMove.encode = .ok nopWord := by
  decide

/-- Two instructions have the word of the no-op. -/
theorem encode_eq_nopWord_iff {i : Instruction Int} :
    i.encode = .ok nopWord ↔ i = .nop ∨ i = idleMove := by
  constructor
  · intro h
    obtain ⟨hrange, hbits⟩ := encode_eq_ok_iff.1 h
    cases i with
    | nop => exact .inl rfl
    | alu op rd rn source => exact .inr (eq_idleMove_of_bits hbits.symm)
    | transfer => exact absurd rfl (decode_transfer hrange hbits).1
    | branch => exact absurd rfl (decode_branch hrange hbits).1
    | exchange => exact absurd rfl (decode_exchange hbits).1
  · rintro (rfl | rfl)
    · rfl
    · exact encode_idleMove

/-- **The word of an instruction decodes to it**, except that of the idle move. -/
theorem decode_of_encode {i : Instruction Int} {w : Word} (h : i.encode = .ok w) :
    decode w = some (if i = idleMove then .nop else i) := by
  rw [decode_of_encode_eq_ok h]
  by_cases hnop : w = nopWord
  · subst hnop
    rcases encode_eq_nopWord_iff.1 h with rfl | rfl
    · rfl
    · rfl
  · have hidle : i ≠ idleMove := by
      rintro rfl
      exact hnop (Except.ok.inj (h.symm.trans encode_idleMove))
    rw [if_neg hnop, if_neg hidle]

/-- **Different instructions have different words**, as long as the no-op is written as a move. -/
theorem eq_of_encode_eq {i j : Instruction Int} {w : Word} (hi : i ≠ .nop) (hj : j ≠ .nop)
    (hiw : i.encode = .ok w) (hjw : j.encode = .ok w) : i = j := by
  by_cases hnop : w = nopWord
  · subst hnop
    rw [(encode_eq_nopWord_iff.1 hiw).resolve_left hi,
      (encode_eq_nopWord_iff.1 hjw).resolve_left hj]
  · have hdecode := (decode_of_encode_eq_ok hiw).symm.trans (decode_of_encode_eq_ok hjw)
    rwa [if_neg hnop, if_neg hnop, Option.some_inj] at hdecode

/-- The flags in the word of a transfer. -/
theorem flags_of_encode {access : Access} {value base : Register} {offset : Int} {writeback : Bool}
    {w : Word} (h : (transfer access value base offset writeback).encode = .ok w) :
    TransferFlags.ofWord w = .ofOffset offset := by
  obtain ⟨-, hfields⟩ := encode_eq_ok_iff_hasFields.1 h
  exact (hasFields_transfer_iff.1 hfields).2.2.1

/-- The displacement in the word of a branch leads from the branch to its target. -/
theorem decode_of_encode_displacement {condition : Condition} {target pc : Address} {w : Word}
    (h : (branch condition (displacement target pc)).encode = .ok w) :
    ∃ d, decode w = some (.branch condition d) ∧ (pc.toNat : Int) + d + 2 = target.toNat := by
  obtain ⟨hrange, hw⟩ := encode_eq_ok_iff.1 h
  exact ⟨_, (decode_branch hrange hw).2, destination_displacement target pc⟩

end Instruction

open Instruction in
/-- **Decoding undoes encoding.**  An instruction has a word exactly if its immediate, offset or
displacement fits its field, and no failure is one of the layout.  The word decodes to the very
instruction, with the flags of a transfer telling the sign of its offset, except that the move of
the zero register to itself is the no-op.  So no two instructions share a word, and a branch is read
back with the displacement that leads from its address to its target. -/
theorem decode_undoes_encode :
    (∀ op rd rn v, (∃ w, (alu op rd rn (.immediate v)).encode = .ok w) ↔ v.toNat ≤ 255) ∧
    (∀ op rd rn r, ∃ w, (alu op rd rn (.register r)).encode = .ok w) ∧
    (∀ access value base offset writeback,
      (∃ w, (transfer access value base offset writeback).encode = .ok w) ↔
        offset.natAbs ≤ 255) ∧
    (∀ d, (∃ w, (branch .always d).encode = .ok w) ↔ -2 ^ 15 ≤ d ∧ d < 2 ^ 15) ∧
    (∀ condition d, condition ≠ .always →
      ((∃ w, (branch condition d).encode = .ok w) ↔ -2 ^ 11 ≤ d ∧ d < 2 ^ 11)) ∧
    (∀ rm, ∃ w, (exchange rm).encode = .ok w) ∧
    (∀ (i : Instruction Int) bits, i.encode ≠ .error (.width bits)) ∧
    (∀ (i : Instruction Int) w, i.encode = .ok w →
      decode w = some (if i = idleMove then .nop else i)) ∧
    idleMove.encode = .ok nopWord ∧
    (∀ access value base offset writeback w,
      (transfer access value base offset writeback).encode = .ok w →
        TransferFlags.ofWord w = ⟨true, true, decide (0 ≤ offset)⟩) ∧
    (∀ (i j : Instruction Int) w, i ≠ .nop → j ≠ .nop →
      i.encode = .ok w → j.encode = .ok w → i = j) ∧
    (∀ condition (target pc : Address) w,
      (branch condition (displacement target pc)).encode = .ok w →
        ∃ d, decode w = some (.branch condition d) ∧ (pc.toNat : Int) + d + 2 = target.toNat) := by
  refine ⟨fun op rd rn v => ?_, fun op rd rn r => exists_encode_iff.2 trivial,
    fun access value base offset writeback => ?_, fun d => exists_encode_iff,
    fun condition d hcondition => ?_, fun rm => exists_encode_iff.2 trivial, encode_ne_width,
    fun i w => decode_of_encode, encode_idleMove, fun _ _ _ _ _ w => flags_of_encode,
    fun i j w => eq_of_encode_eq, fun condition target pc w => decode_of_encode_displacement⟩
  · rw [exists_encode_iff, InRange]
    omega
  · rw [exists_encode_iff, InRange]
    omega
  · cases condition with
    | always => exact absurd rfl hcondition
    | ifZero | ifNonZero => exact exists_encode_iff

open Instruction in
/-- A store that moves its base register down, and a branch back over five words. -/
theorem decode_undoes_encode_of_store :
    (∃ w, (transfer .store .lr .sp (-12) true).encode = .ok w ∧
      decode w = some (.transfer .store .lr .sp (-12) true) ∧
      TransferFlags.ofWord w = ⟨true, true, false⟩) ∧
    ∃ w d, (branch (.ifZero .fp) (displacement 95 100)).encode = .ok w ∧
      decode w = some (.branch (.ifZero .fp) d) ∧ ((100 : Address).toNat : Int) + d + 2 = 95 := by
  obtain ⟨-, -, htransfer, -, hconditional, -, -, hdecode, -, hflags, -, htarget⟩ :=
    decode_undoes_encode
  obtain ⟨w, hw⟩ := (htransfer .store .lr .sp (-12) true).2 (by decide)
  obtain ⟨w', hw'⟩ := (hconditional (.ifZero .fp) (displacement 95 100) (by decide)).2 (by decide)
  obtain ⟨d, hd, hreach⟩ := htarget _ _ _ _ hw'
  exact ⟨⟨w, hw, hdecode _ w hw, hflags _ _ _ _ _ w hw⟩, w', d, hw', hd, hreach⟩

/-! ## From words to instructions and back -/

section
variable {w : Word} {i : Instruction Int}

theorem signedBits_bounds (w : Word) (bits : Nat) :
    -2 ^ bits ≤ signedBits w (bits + 1) ∧ signedBits w (bits + 1) < 2 ^ bits := by
  have hpow : ((1 <<< (bits + 1) : Nat) : Int) = 2 ^ bits * 2 := by
    simp [Nat.shiftLeft_eq, Int.pow_succ]
  have hpos : 0 < 1 <<< (bits + 1) := by
    rw [Nat.shiftLeft_eq, Nat.one_mul]
    exact Nat.two_pow_pos _
  have hle := Int.le_bmod (x := bitsAt w 0 (bits + 1)) hpos
  have hlt := Int.bmod_lt (x := bitsAt w 0 (bits + 1)) hpos
  rw [signedBits]
  omega

/-- The two's complement form of the number that a field spells is that field. -/
theorem signedBits_emod (w : Word) (bits : Nat) :
    (signedBits w bits % 2 ^ bits).toNat = bitsAt w 0 bits := by
  have hpow : ((1 <<< bits : Nat) : Int) = (2 ^ bits : Nat) := by simp [Nat.shiftLeft_eq]
  have hcast : (2 : Int) ^ bits = (2 ^ bits : Nat) := by simp
  rw [signedBits, hcast, ← hpow, Int.bmod_emod, hpow, ← Int.natCast_mod, Int.toNat_natCast,
    Nat.mod_eq_of_lt (bitsAt_lt w 0 bits)]

/-- What the bits that decoding looks at say about the instruction of a word. -/
inductive ReadsAs (w : Word) : Instruction Int → Prop
  | nop (h : w = nopWord) : ReadsAs w .nop
  | exchange (h : bitsAt w 4 24 = exchangePattern) : ReadsAs w (.exchange (registerAt w 0))
  | always (h : bitsAt w 24 4 = 0b1010) : ReadsAs w (.branch .always (signedBits w 16))
  | ifZero (h : bitsAt w 20 8 = 0b10110000) :
      ReadsAs w (.branch (.ifZero (registerAt w 16)) (signedBits w 12))
  | ifNonZero (h : bitsAt w 20 8 = 0b10110001) :
      ReadsAs w (.branch (.ifNonZero (registerAt w 16)) (signedBits w 12))
  | aluImmediate {op : AluOp} (hclass : bitsAt w 26 2 = 0b00) (hkind : bitsAt w 25 1 = 1)
      (hop : bitsAt w 21 4 = op.opcode) (hflags : bitsAt w 20 1 = 0) (hrotate : bitsAt w 8 4 = 0) :
      ReadsAs w (.alu op (registerAt w 12) (registerAt w 16)
        (.immediate (UInt32.ofNat (bitsAt w 0 8))))
  | aluRegister {op : AluOp} (hclass : bitsAt w 26 2 = 0b00) (hkind : bitsAt w 25 1 = 0)
      (hop : bitsAt w 21 4 = op.opcode) (hflags : bitsAt w 20 1 = 0) (hrotate : bitsAt w 8 4 = 0) :
      ReadsAs w (.alu op (registerAt w 12) (registerAt w 16) (.register (registerAt w 0)))
  | transfer {access : Access} {writeback : Bool} {offset : Int} (hclass : bitsAt w 26 2 = 0b01)
      (hmode : bitsAt w 20 3 = access.mode writeback) (hmagnitude : offset.natAbs = bitsAt w 0 8)
      (hsign : if (TransferFlags.ofWord w).up then 0 ≤ offset else offset ≤ 0) :
      ReadsAs w (.transfer access (registerAt w 12) (registerAt w 16) offset writeback)

theorem readsAs_of_decodeArithmetic (hclass : bitsAt w 26 2 = 0b00)
    (h : decodeArithmetic w = some i) : ReadsAs w i := by
  rw [decodeArithmetic] at h
  split at h
  · cases h
  · next hflags =>
    split at h
    · cases h
    · next op hop =>
      rw [AluOp.ofOpcode?_eq_some_iff] at hop
      split at h
      · cases h
      · next hrotate =>
        obtain rfl := Option.some.inj h
        rw [Decidable.not_not] at hflags hrotate
        by_cases hkind : bitsAt w 25 1 = 1
        · rw [if_pos hkind]
          exact .aluImmediate hclass hkind hop hflags hrotate
        · have hlt := bitsAt_lt w 25 1
          rw [if_neg hkind]
          exact .aluRegister hclass (by omega) hop hflags hrotate

theorem readsAs_of_decodeTransfer (hclass : bitsAt w 26 2 = 0b01)
    (h : decodeTransfer w = some i) : ReadsAs w i := by
  rw [decodeTransfer] at h
  split at h
  · cases h
  · next access writeback hmode =>
    obtain rfl := Option.some.inj h
    refine .transfer hclass (Access.ofMode?_eq_some_iff.1 hmode) ?_ ?_
    · split <;> omega
    · split <;> omega

/-- **What a word decodes to is what its bits say.** -/
theorem readsAs_of_decode (h : decode w = some i) : bitsAt w 28 4 = 0b1110 ∧ ReadsAs w i := by
  rw [decode] at h
  by_cases hexecute : bitsAt w 28 4 = 0b1110
  · rw [if_neg (not_not_intro hexecute)] at h
    refine ⟨hexecute, ?_⟩
    -- One test after the other, as decoding makes them.
    split at h
    · next hw => exact Option.some.inj h ▸ .nop hw
    split at h
    · next hw => exact Option.some.inj h ▸ .exchange hw
    split at h
    · next hw => exact Option.some.inj h ▸ .always hw
    split at h
    · next hw => exact Option.some.inj h ▸ .ifZero hw
    split at h
    · next hw => exact Option.some.inj h ▸ .ifNonZero hw
    split at h
    · next hw => exact readsAs_of_decodeArithmetic hw h
    split at h
    · next hw => exact readsAs_of_decodeTransfer hw h
    · cases h
  · rw [if_pos hexecute] at h
    cases h

theorem toNat_ofNat_bitsAt (w : Word) : (UInt32.ofNat (bitsAt w 0 8)).toNat = bitsAt w 0 8 :=
  UInt32.toNat_ofNat_of_lt' (Nat.lt_trans (bitsAt_lt w 0 8) (by decide))

theorem ReadsAs.inRange (h : ReadsAs w i) : i.InRange := by
  cases h with
  | nop | exchange | aluRegister => exact trivial
  | always => exact signedBits_bounds w 15
  | ifZero | ifNonZero => exact signedBits_bounds w 11
  | aluImmediate =>
    rw [Instruction.InRange, toNat_ofNat_bitsAt]
    exact bitsAt_lt w 0 8
  | transfer _ _ hmagnitude =>
    rw [Instruction.InRange, hmagnitude]
    exact bitsAt_lt w 0 8

/-! ## Canonical words -/

/-- The bits of a word that decoding skips are those that encoding writes. -/
def Canonical (w : Word) : Instruction Int → Prop
  | .branch .always _ => bitsAt w 16 8 = 0
  | .branch (.ifZero _) _ | .branch (.ifNonZero _) _ => bitsAt w 12 4 = 0
  | .alu _ _ _ (.register _) => bitsAt w 4 4 = 0
  | .transfer .. =>
    bitsAt w 8 4 = 0 ∧ (TransferFlags.ofWord w).immediate = true ∧
      (TransferFlags.ofWord w).preIndex = true ∧
      ((TransferFlags.ofWord w).up = true ∨ bitsAt w 0 8 ≠ 0)
  | .nop | .exchange _ | .alu _ _ _ (.immediate _) => True

/-- The flags of a word are those that encoding writes for its offset, unless that is zero and
subtracted. -/
theorem ofWord_eq_ofOffset_iff {offset : Int} (hmagnitude : offset.natAbs = bitsAt w 0 8)
    (hsign : if (TransferFlags.ofWord w).up then 0 ≤ offset else offset ≤ 0) :
    TransferFlags.ofWord w = .ofOffset offset ↔
      (TransferFlags.ofWord w).immediate = true ∧ (TransferFlags.ofWord w).preIndex = true ∧
        ((TransferFlags.ofWord w).up = true ∨ bitsAt w 0 8 ≠ 0) := by
  generalize TransferFlags.ofWord w = flags at *
  obtain ⟨immediate, preIndex, up⟩ := flags
  rw [TransferFlags.ofOffset, TransferFlags.mk.injEq]
  cases up with
  | true =>
    have hup : decide (0 ≤ offset) = true := decide_eq_true hsign
    simp [hup]
  | false =>
    have hdown : offset ≤ 0 := hsign
    have hup : false = decide (0 ≤ offset) ↔ bitsAt w 0 8 ≠ 0 := by
      rw [eq_comm, decide_eq_false_iff_not, ← hmagnitude]
      omega
    simp [hup]

/-- A word has the fields of the instruction that it reads as exactly if it is canonical. -/
theorem ReadsAs.hasFields_iff (hexecute : bitsAt w 28 4 = 0b1110) (h : ReadsAs w i) :
    HasFields w i.fields ↔ Canonical w i := by
  cases h with
  | nop h =>
    subst h
    simp only [Canonical, iff_true]
    exact ⟨rfl, trivial⟩
  | exchange h => simp [Instruction.hasFields_exchange_iff, Canonical, hexecute, h]
  | always h =>
    rw [Instruction.hasFields_always_iff, signedBits_emod]
    simp [Canonical, hexecute, h]
  | ifZero h | ifNonZero h =>
    refine (Instruction.hasFields_conditional_iff (by decide)).trans ?_
    rw [signedBits_emod]
    simp [Canonical, hexecute, h]
  | aluImmediate hclass hkind hop hflags hrotate =>
    rw [Instruction.hasFields_alu_iff, Instruction.hasFields_immediate_iff, toNat_ofNat_bitsAt,
      Nat.mod_eq_of_lt (bitsAt_lt w 0 8)]
    simp [Instruction.sourceKindField, Canonical, hexecute, hclass, hkind, hop, hflags, hrotate]
  | aluRegister hclass hkind hop hflags hrotate =>
    rw [Instruction.hasFields_alu_iff, Instruction.hasFields_register_iff]
    simp [Instruction.sourceKindField, Canonical, hexecute, hclass, hkind, hop, hflags, hrotate]
  | transfer hclass hmode hmagnitude hsign =>
    rw [Instruction.hasFields_transfer_iff, ofWord_eq_ofOffset_iff hmagnitude hsign, hmagnitude,
      Nat.mod_eq_of_lt (bitsAt_lt w 0 8)]
    simp only [hexecute, hclass, hmode, true_and, and_true]
    exact and_comm

/-- **Encoding what a word decodes to gives that word exactly if the word is canonical.**  Encoding
never fails here, so a word that is not canonical shows the text of another word, which is the one
that the assembler writes. -/
theorem encode_eq_iff_canonical {w : Word} {i : Instruction Int} (h : decode w = some i) :
    ∃ w', i.encode = .ok w' ∧ (w' = w ↔ Canonical w i) := by
  obtain ⟨hexecute, hreads⟩ := readsAs_of_decode h
  obtain ⟨w', hw'⟩ := Instruction.exists_encode_iff.2 hreads.inRange
  refine ⟨w', hw', ?_⟩
  rw [← hreads.hasFields_iff hexecute]
  constructor
  · rintro rfl
    exact (Instruction.encode_eq_ok_iff_hasFields.1 hw').2
  · intro hfields
    have hw := Instruction.encode_eq_ok_iff_hasFields.2 ⟨hreads.inRange, hfields⟩
    exact Except.ok.inj (hw'.symm.trans hw)

/-- Two words that the assembler never writes: a load with an offset of zero to be subtracted, and a
move of the zero register to itself that is not the no-op. -/
theorem encode_ne_of_not_canonical :
    (decode 0xE71DE000 = some (.transfer .load .lr .fp 0 false) ∧
      ∃ w, (Instruction.transfer .load .lr .fp 0 false).encode = .ok w ∧ w ≠ 0xE71DE000) ∧
    decode 0xE1A00010 = some .idleMove ∧
      ∃ w, Instruction.idleMove.encode = .ok w ∧ w ≠ 0xE1A00010 := by
  have hload : decode 0xE71DE000 = some (.transfer .load .lr .fp 0 false) := by decide
  have hmove : decode 0xE1A00010 = some .idleMove := by decide
  obtain ⟨w, hw, hload_iff⟩ := encode_eq_iff_canonical hload
  obtain ⟨w', hw', hmove_iff⟩ := encode_eq_iff_canonical hmove
  have hsign : ¬((TransferFlags.ofWord 0xE71DE000).up = true ∨ bitsAt 0xE71DE000 0 8 ≠ 0) := by
    decide
  have hbits : bitsAt 0xE1A00010 4 4 ≠ 0 := by decide
  exact ⟨⟨hload, w, hw, fun h => hsign (hload_iff.1 h).2.2.2⟩, hmove, w', hw',
    fun h => hbits (hmove_iff.1 h)⟩

end
end FlaglessAsm
