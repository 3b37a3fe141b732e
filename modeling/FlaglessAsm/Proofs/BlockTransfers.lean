import FlaglessAsm.Proofs.RegisterLists
import Mathlib.Data.Fintype.Card

/-!
# Blocks of registers

A block transfer names a base register and a list of registers, and the base may be in the list.
Storing a block reads all registers as they were.  Loading one writes the registers one after the
other, and as soon as the base itself has been loaded, the registers behind it in the list are
loaded from where its new value points: a block is loaded from the original base exactly as far as
the base has not been listed.

## What is here

* `length_le_of_nodup`: a list without duplicates is short.
* `read_of_not_listed`, `read_of_listed`: where a register of a block is loaded from.
* `run_expandBlock`: the base is moved at the end.
* `LoadedBlock`, `StoredBlock`, `block_transfers_of_expand`: the effect of block transfers.
* `base_lost_of_listed_first`: a list that names its base first.
-/

set_option autoImplicit false

namespace FlaglessAsm

/-! ## Lists without duplicates -/

theorem length_le_of_nodup {registers : List Register} (h : registers.Nodup) :
    registers.length ≤ 16 := by
  have hinjective : Function.Injective Register.code := fun _ _ => congrArg Register.mk
  have hcodes : (registers.map Register.code).Nodup := h.map hinjective
  calc registers.length = (registers.map Register.code).length := (List.length_map ..).symm
    _ ≤ Fintype.card (Fin 16) := hcodes.length_le_card
    _ = 16 := Fintype.card_fin 16

/-! ## Loading a block -/

section
variable {m : Machine} {base r : Register} {registers : List Register} {k : Nat}

/-- A register stands only once in a list without duplicates. -/
theorem exists_split_of_getElem? (hnodup : registers.Nodup) (hk : registers[k]? = some r) :
    ∃ behind, registers = registers.take k ++ r :: behind ∧ r ∉ registers.take k ∧ r ∉ behind := by
  obtain ⟨hlt, hget⟩ := List.getElem?_eq_some_iff.1 hk
  have hsplit : registers = registers.take k ++ r :: registers.drop (k + 1) := by
    rw [← hget, List.getElem_cons_drop, List.take_append_drop]
  have hmiddle : (registers.take k ++ r :: registers.drop (k + 1)).Nodup := hsplit ▸ hnodup
  have hnot := (List.nodup_cons.1 (List.nodup_middle.1 hmiddle)).1
  rw [List.mem_append, not_or] at hnot
  exact ⟨_, hsplit, hnot.1, hnot.2⟩

/-- A register of a block is loaded through the base as the registers in front of it leave it. -/
theorem read_blockLoads_of_getElem? (hnodup : registers.Nodup) (hr : r ≠ .zero)
    (hk : registers[k]? = some r) :
    (m.run (blockTransfers .load base registers)).read r
      = m.memory ((m.run (blockTransfers .load base (registers.take k))).read base + 4 * k) := by
  obtain ⟨behind, hsplit, -, hbehind⟩ := exists_split_of_getElem? hnodup hk
  have hlength : (registers.take k).length = k :=
    List.length_take_of_le (Nat.le_of_lt (List.getElem?_eq_some_iff.1 hk).1)
  calc (m.run (blockTransfers .load base registers)).read r
      = (m.run (blockTransfers .load base (registers.take k ++ r :: behind))).read r := by
        rw [← hsplit]
    _ = _ := by rw [read_blockLoads hr hbehind, hlength]

/-- As far as the base has not been listed, a block is loaded from the original base. -/
theorem read_of_not_listed (hnodup : registers.Nodup) (hr : r ≠ .zero)
    (hk : registers[k]? = some r) (hbase : base ∉ registers.take k) :
    (m.run (blockTransfers .load base registers)).read r = m.memory (m.read base + 4 * k) := by
  rw [read_blockLoads_of_getElem? hnodup hr hk,
    (sameExcept_blockLoads m base (registers.take k)).read_eq base hbase]

/-- Behind the base, a block is loaded from where the value loaded into the base points. -/
theorem read_of_listed {j : Nat} (hnodup : registers.Nodup) (hr : r ≠ .zero)
    (hbase : base ≠ .zero) (hj : registers[j]? = some base) (hjk : j < k)
    (hk : registers[k]? = some r) :
    (m.run (blockTransfers .load base registers)).read r
      = m.memory (m.memory (m.read base + 4 * j) + 4 * k) := by
  have htake : (registers.take k)[j]? = some base := by rw [List.getElem?_take_of_lt hjk, hj]
  have hfirst : base ∉ (registers.take k).take j := by
    obtain ⟨-, -, hnot, -⟩ := exists_split_of_getElem? hnodup hj
    rwa [List.take_take, Nat.min_eq_left (Nat.le_of_lt hjk)]
  rw [read_blockLoads_of_getElem? hnodup hr hk,
    read_of_not_listed (hnodup.sublist (List.take_sublist k registers)) hbase htake hfirst]

end

/-! ## Moving the base -/

namespace Machine

variable (m : Machine) {base r : Register} (address : Int) (moved : Bool)

theorem memory_moveBase : (m.moveBase base address moved).memory = m.memory := by
  cases moved <;> rfl

theorem read_moveBase_of_ne (h : r ≠ base) :
    (m.moveBase base address moved).read r = m.read r := by
  cases moved with
  | false => rfl
  | true => exact m.read_write_of_ne h address

theorem read_moveBase_self (h : base ≠ .zero) :
    (m.moveBase base address moved).read base = if moved then address else m.read base := by
  cases moved with
  | false => rfl
  | true => exact m.read_write_self h address

end Machine

section
variable {first : Operand} {base : Register} {moved : Bool} {registers : List Register}

theorem isOperand_of_blockBase? {rest : List Operand} (hreach : WithinReach (first :: rest))
    (hfirst : blockBase? first = some (base, moved)) : base.IsOperand := by
  refine hreach first (List.mem_cons_self ..) base ?_
  cases first with
  | register | movingBase =>
    cases hfirst
    exact List.mem_singleton_self _
  | _ => cases hfirst

/-- A block transfer moves its base, if at all, after all its transfers. -/
theorem run_expandBlock {access : Access} {is : List SymbolicInstruction}
    (hfirst : blockBase? first = some (base, moved)) (hnodup : registers.Nodup)
    (h : expandBlock access [first, .registerList registers] = .ok is) (m : Machine) :
    m.run is = (m.run (blockTransfers access base registers)).moveBase base
      ((m.run (blockTransfers access base registers)).read base + 4 * registers.length) moved := by
  have hsize : (slotSize * registers.length).natAbs < UInt32.size := by
    have hlength := length_le_of_nodup hnodup
    rw [slotSize, UInt32.size]
    omega
  simp only [expandBlock, hfirst, Except.ok.injEq] at h
  rw [← h, Machine.run_append]
  cases moved with
  | false => rfl
  | true =>
    rw [if_pos rfl, Machine.run_cons, Machine.run_nil, step_moveBy hsize, slotSize]
    rfl

/-! ## Effects of block transfers -/

/-- The second machine is the first one after a block has been loaded.  The last two fields tell the
two cases of the base apart: listed, it is lost for the registers behind it; otherwise it is only
moved. -/
structure LoadedBlock (base : Register) (moved : Bool) (registers : List Register)
    (m n : Machine) : Prop where
  memory_eq : n.memory = m.memory
  read_eq : ∀ r, r ∉ registers → r ≠ base → n.read r = m.read r
  read_listed : ∀ (k : Nat) r, registers[k]? = some r → base ∉ registers.take k →
    (r = base → moved = false) → n.read r = m.memory (m.read base + 4 * k)
  read_behind : ∀ (j k : Nat) r, registers[j]? = some base → j < k → registers[k]? = some r →
    n.read r = m.memory (m.memory (m.read base + 4 * j) + 4 * k)
  read_base : base ∉ registers →
    n.read base = if moved then m.read base + 4 * registers.length else m.read base

/-- The second machine is the first one after a block has been stored. -/
structure StoredBlock (base : Register) (moved : Bool) (registers : List Register)
    (m n : Machine) : Prop where
  memory_slot : ∀ (k : Nat) r, registers[k]? = some r →
    n.memory (m.read base + 4 * k) = m.read r
  memory_eq : ∀ a, (∀ k < registers.length, a ≠ m.read base + 4 * k) → n.memory a = m.memory a
  read_eq : ∀ r, r ≠ base → n.read r = m.read r
  read_base : n.read base = if moved then m.read base + 4 * registers.length else m.read base

theorem loadedBlock_of_expandBlock {is : List SymbolicInstruction}
    (hreach : WithinReach [first, .registerList registers])
    (hfirst : blockBase? first = some (base, moved)) (hnodup : registers.Nodup)
    (h : expandBlock .load [first, .registerList registers] = .ok is) (m : Machine) :
    LoadedBlock base moved registers m (m.run is) := by
  have hbase := isOperand_of_blockBase? hreach hfirst
  have hlisted {k : Nat} {r : Register} (hk : registers[k]? = some r) : r ≠ .zero :=
    (hreach (.registerList registers) (by simp) r (List.mem_of_getElem? hk)).ne_zero
  have hsame := sameExcept_blockLoads m base registers
  rw [run_expandBlock hfirst hnodup h]
  refine ⟨?_, fun r hr hne => ?_, fun k r hk hnot hmoved => ?_, fun j k r hj hjk hk => ?_,
    fun hnot => ?_⟩
  · rw [Machine.memory_moveBase, hsame.memory_eq]
  · rw [Machine.read_moveBase_of_ne _ _ _ hne, hsame.read_eq r hr]
  · -- A base that is moved at the end keeps nothing of what was loaded into it.
    have hread := read_of_not_listed (m := m) hnodup (hlisted hk) hk hnot
    by_cases hr : r = base
    · rw [hmoved hr]
      exact hread
    · rw [Machine.read_moveBase_of_ne _ _ _ hr, hread]
  · -- A list without duplicates does not name its base again.
    have hne : r ≠ base := by
      rintro rfl
      have heq : j = k := (List.getElem?_inj (List.getElem?_eq_some_iff.1 hj).1 hnodup).1
        (hj.trans hk.symm)
      omega
    rw [Machine.read_moveBase_of_ne _ _ _ hne,
      read_of_listed hnodup (hlisted hk) hbase.ne_zero hj hjk hk]
  · rw [Machine.read_moveBase_self _ _ _ hbase.ne_zero, hsame.read_eq base hnot]

theorem storedBlock_of_expandBlock {is : List SymbolicInstruction}
    (hreach : WithinReach [first, .registerList registers])
    (hfirst : blockBase? first = some (base, moved)) (hnodup : registers.Nodup)
    (h : expandBlock .store [first, .registerList registers] = .ok is) (m : Machine) :
    StoredBlock base moved registers m (m.run is) := by
  have hbase := isOperand_of_blockBase? hreach hfirst
  rw [run_expandBlock hfirst hnodup h, blockTransfers_eq]
  refine ⟨fun k r hk => ?_, fun a ha => ?_, fun r hne => ?_, ?_⟩
  · rw [Machine.memory_moveBase]
    refine memory_stores (mem_blockSlotsFrom.2 ⟨k, hk, rfl⟩) fun s hs hoffset => ?_
    obtain ⟨j, hj, hs⟩ := mem_blockSlotsFrom.1 hs
    obtain rfl : j = k := by omega
    exact Option.some.inj (hj.symm.trans hk)
  · rw [Machine.memory_moveBase]
    refine memory_stores_of_forall_ne fun s hs => ?_
    obtain ⟨k, hk, hoffset⟩ := mem_blockSlotsFrom.1 hs
    have hne := ha k (List.getElem?_eq_some_iff.1 hk).1
    omega
  · rw [Machine.read_moveBase_of_ne _ _ _ hne, read_stores]
  · rw [Machine.read_moveBase_self _ _ _ hbase.ne_zero, read_stores]

end

/-- **Block transfers of a source text**, for any base and any list without duplicates.  Storing a
block puts every register of the list where the original base says, also if the base is one of them.
Loading a block takes a register from where the original base says as long as the base is not listed
in front of it; a register listed behind the base is taken from where the value loaded into the base
says.  A base that is moved ends up behind the block. -/
theorem block_transfers_of_expand {line : SourceLine} {mnemonic : Mnemonic} {first : Operand}
    {base : Register} {moved : Bool} {registers : List Register}
    (hread : Statement.read line = .ok (.instruction mnemonic [first, .registerList registers]))
    (hfirst : blockBase? first = some (base, moved)) (hnodup : registers.Nodup)
    (t : SymbolTable) :
    (mnemonic.operation = .ldm →
      ∃ is, expand t mnemonic.operation [first, .registerList registers] = .ok is ∧
        ∀ m : Machine, LoadedBlock base moved registers m (m.run is)) ∧
    (mnemonic.operation = .stm →
      ∃ is, expand t mnemonic.operation [first, .registerList registers] = .ok is ∧
        ∀ m : Machine, StoredBlock base moved registers m (m.run is)) := by
  have hreach := withinReach_of_read hread
  have hexpand (access : Access) :
      ∃ is, expandBlock access [first, .registerList registers] = .ok is := by
    simp only [expandBlock, hfirst]
    exact ⟨_, rfl⟩
  constructor
  · intro hop
    obtain ⟨is, his⟩ := hexpand .load
    rw [hop]
    exact ⟨is, his, loadedBlock_of_expandBlock hreach hfirst hnodup his⟩
  · intro hop
    obtain ⟨is, his⟩ := hexpand .store
    rw [hop]
    exact ⟨is, his, storedBlock_of_expandBlock hreach hfirst hnodup his⟩

/-- A base in the middle of its list is loaded, and stored, like the registers around it, and is
moved if the text asks for it. -/
theorem block_transfers_of_listedBase :
    (∃ is, expand .empty .ldm [.register .fp, .registerList [.lr, .fp, .sp]] = .ok is ∧
      ∀ m : Machine, LoadedBlock .fp false [.lr, .fp, .sp] m (m.run is)) ∧
    ∃ is, expand .empty .stm [.movingBase .fp, .registerList [.lr, .fp, .sp]] = .ok is ∧
      ∀ m : Machine, StoredBlock .fp true [.lr, .fp, .sp] m (m.run is) := by
  have hload : Statement.read ⟨0, "ldm fp, \x7blr, fp, sp\x7d"⟩
      = .ok (.instruction ⟨"ldm", .ldm⟩ [.register .fp, .registerList [.lr, .fp, .sp]]) :=
    toOption_eq_some_iff.1 (by decide +kernel)
  have hstore : Statement.read ⟨0, "stmia fp!, \x7blr, fp, sp\x7d"⟩
      = .ok (.instruction ⟨"stmia", .stm⟩ [.movingBase .fp, .registerList [.lr, .fp, .sp]]) :=
    toOption_eq_some_iff.1 (by decide +kernel)
  exact ⟨(block_transfers_of_expand hload rfl (by decide) .empty).1 rfl,
    (block_transfers_of_expand hstore rfl (by decide) .empty).2 rfl⟩

/-- **The original base is lost when it is listed first.**  The second register of the list is not
loaded from behind the first one. -/
theorem base_lost_of_listed_first :
    Statement.read ⟨0, "ldm fp, \x7bfp, lr\x7d"⟩
      = .ok (.instruction ⟨"ldm", .ldm⟩ [.register .fp, .registerList [.fp, .lr]]) ∧
    ∃ is, expand .empty .ldm [.register .fp, .registerList [.fp, .lr]] = .ok is ∧
      ∃ m : Machine, (m.run is).read .lr ≠ m.memory (m.read .fp + 4) :=
  ⟨toOption_eq_some_iff.1 (by decide +kernel), _, rfl, ⟨fun _ => 0, fun a => a + 1⟩, by decide⟩

end FlaglessAsm
