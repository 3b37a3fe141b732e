import FlaglessAsm.Proofs.Emission
import Mathlib.Data.List.Forall2

/-!
# Registers that source text can name

Four registers are out of reach of source text: the zero register, because `r0` is read as another
one, and the three that expansions use for their own values.  Expansions write these three between
reads of their operands, so that they keep the meaning of a source instruction rests on this.

## What is here

* `except_bind_eq_ok_iff`, `mapM_eq_ok_iff`: readings put together from readings of parts.
* `Register.IsOperand`, `Operand.registers`: the registers within reach, and those of an operand.
* `WithinReach`, `withinReach_of_read`: the operands of an instruction name no other registers.
-/

set_option autoImplicit false

namespace FlaglessAsm

/-! ## Readings of parts -/

section
variable {ε α β : Type}

theorem except_bind_eq_ok_iff {x : Except ε α} {f : α → Except ε β} {b : β} :
    (x >>= f) = .ok b ↔ ∃ a, x = .ok a ∧ f a = .ok b := by
  cases x <;> simp [bind, Except.bind]

/-- All members of a list are read exactly if each of them is. -/
theorem mapM_eq_ok_iff {f : α → Except ε β} {as : List α} {bs : List β} :
    as.mapM f = .ok bs ↔ List.Forall₂ (fun a b => f a = .ok b) as bs := by
  induction as generalizing bs with
  | nil =>
    rw [List.mapM_nil, List.forall₂_nil_left_iff]
    exact ⟨fun h => (Except.ok.inj h).symm, fun h => congrArg Except.ok h.symm⟩
  | cons a as ih =>
    rw [List.mapM_cons, except_bind_eq_ok_iff, List.forall₂_cons_left_iff]
    constructor
    · rintro ⟨b, hb, hrest⟩
      obtain ⟨bs, hbs, ⟨⟩⟩ := except_bind_eq_ok_iff.1 hrest
      exact ⟨b, bs, hb, ih.1 hbs, rfl⟩
    · rintro ⟨b, bs, hb, hbs, rfl⟩
      exact ⟨b, hb, except_bind_eq_ok_iff.2 ⟨bs, ih.2 hbs, rfl⟩⟩

/-- Everything that was read was read from something. -/
theorem exists_of_mem_of_mapM_eq_ok {f : α → Except ε β} {as : List α} {bs : List β}
    (h : as.mapM f = .ok bs) {b : β} (hb : b ∈ bs) : ∃ a, f a = .ok b := by
  rw [mapM_eq_ok_iff] at h
  induction h with
  | nil => cases hb
  | cons ha _ ih =>
    rcases List.mem_cons.1 hb with rfl | hb
    · exact ⟨_, ha⟩
    · exact ih hb

end

/-! ## Registers within reach -/

/-- A register that an operand of a source text can stand for. -/
structure Register.IsOperand (r : Register) : Prop where
  ne_zero : r ≠ .zero
  ne_scratch : r ≠ .scratch
  ne_lessThan : r ≠ .lessThan
  ne_greaterThan : r ≠ .greaterThan

/-- The registers that an operand names. -/
def Operand.registers : Operand → List Register
  | .register r | .movingBase r => [r]
  | .memory base _ _ => [base]
  | .registerList rs => rs
  | .immediate _ | .label _ => []

/-- Operands name registers within reach of source text only. -/
def WithinReach (operands : List Operand) : Prop :=
  ∀ o ∈ operands, ∀ r ∈ o.registers, r.IsOperand

theorem WithinReach.register {operands : List Operand} (h : WithinReach operands) {r : Register}
    (hr : .register r ∈ operands) : r.IsOperand :=
  h _ hr r (List.mem_singleton_self r)

theorem isOperand_of_readRegister {s : List Char} {r : Register} (h : readRegister s = .ok r) :
    r.IsOperand := by
  rw [readRegister] at h
  split at h
  · cases h
  · next q _ =>
    split at h
    · obtain rfl := Except.ok.inj h
      exact ⟨by decide, by decide, by decide, by decide⟩
    · next hzero =>
      split at h
      · cases h
      · next hreserved =>
        obtain rfl := Except.ok.inj h
        refine ⟨hzero, ?_, ?_, ?_⟩ <;>
        · rintro rfl
          exact hreserved rfl

/-! ## Operands that were read -/

/-- Whatever operand is read names registers within reach. -/
def NamesOperands (x : Except OperandError Operand) : Prop :=
  ∀ o, x = .ok o → ∀ r ∈ o.registers, r.IsOperand

theorem namesOperands_readAddressing (whole inner : List Char) (writeback : Bool) :
    NamesOperands (readAddressing whole inner writeback) := by
  intro o h r hr
  unfold readAddressing at h
  split at h
  · cases h
  · obtain ⟨base, hbase, ⟨⟩⟩ := except_bind_eq_ok_iff.1 h
    exact List.mem_singleton.1 hr ▸ isOperand_of_readRegister hbase
  · obtain ⟨base, hbase, hrest⟩ := except_bind_eq_ok_iff.1 h
    obtain ⟨offset, -, ⟨⟩⟩ := except_bind_eq_ok_iff.1 hrest
    exact List.mem_singleton.1 hr ▸ isOperand_of_readRegister hbase
  · obtain ⟨base, -, hrest⟩ := except_bind_eq_ok_iff.1 h
    obtain ⟨offset, -, ⟨⟩⟩ := except_bind_eq_ok_iff.1 hrest

theorem namesOperands_readMemory (s : List Char) : NamesOperands (readMemory s) := by
  intro o h r hr
  unfold readMemory at h
  dsimp only at h
  split at h
  · split at h
    · exact namesOperands_readAddressing _ _ _ o h r hr
    · cases h
  · cases h

theorem namesOperands_readRegisterList (s : List Char) : NamesOperands (readRegisterList s) := by
  intro o h r hr
  unfold readRegisterList at h
  split at h
  · cases h
  · obtain ⟨registers, hregisters, hrest⟩ := except_bind_eq_ok_iff.1 h
    split at hrest
    · cases hrest
    · obtain rfl := Except.ok.inj hrest
      obtain ⟨name, hname⟩ := exists_of_mem_of_mapM_eq_ok hregisters hr
      exact isOperand_of_readRegister hname

theorem namesOperands_readOperand (s : List Char) : NamesOperands (readOperand s) := by
  intro o h r hr
  unfold readOperand at h
  split at h
  · obtain ⟨value, -, rfl⟩ := map_eq_ok_iff.1 h
    cases hr
  · exact namesOperands_readMemory _ o h r hr
  · exact namesOperands_readRegisterList _ o h r hr
  · split at h
    · obtain ⟨base, hbase, rfl⟩ := map_eq_ok_iff.1 h
      exact List.mem_singleton.1 hr ▸ isOperand_of_readRegister hbase
    · split at h
      · obtain ⟨q, hq, rfl⟩ := map_eq_ok_iff.1 h
        exact List.mem_singleton.1 hr ▸ isOperand_of_readRegister hq
      · split at h
        · cases h
          cases hr
        · cases h

theorem withinReach_of_readOperands {s : List Char} {operands : List Operand}
    (h : readOperands s = .ok operands) : WithinReach operands := by
  intro o ho
  obtain ⟨texts, -, hread⟩ := except_bind_eq_ok_iff.1 h
  obtain ⟨text, htext⟩ := exists_of_mem_of_mapM_eq_ok hread ho
  exact namesOperands_readOperand text o htext

/-- **The operands of an instruction name only registers within reach of source text.** -/
theorem withinReach_of_read {line : SourceLine} {mnemonic : Mnemonic} {operands : List Operand}
    (h : Statement.read line = .ok (.instruction mnemonic operands)) : WithinReach operands := by
  rw [Statement.read, mapError_eq_ok_iff, Statement.readText] at h
  split at h
  · dsimp only at h
    split at h <;> cases h
  · dsimp only at h
    split at h
    · cases h
    · rw [mapError_eq_ok_iff, Statement.readBody] at h
      split at h
      · obtain ⟨_, -, ⟨⟩⟩ := map_eq_ok_iff.1 h
      · obtain ⟨os, hos, ⟨⟩⟩ := map_eq_ok_iff.1 h
        exact withinReach_of_readOperands hos

end FlaglessAsm
