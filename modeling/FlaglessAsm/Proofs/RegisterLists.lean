import FlaglessAsm.Proofs.SourceMeaning

/-!
# Saving and restoring registers

A list of registers is transferred one register at a time, all through one base register.  Stores
only read registers, so all of them see the base as it was at first.  Loads write registers, and
each of them goes through the base as the loads before it have left it: this is what
`read_loads_append` says, and everything about loads follows from it.

## What is here

* `transfers`, `blockSlotsFrom`, `pushSlots`: transfers at given offsets, and the offsets in use.
* `read_loads_append`, `memory_stores`, `step_moveBy`: the effect of loads, stores and moves of the
  base.
* `Pushed`, `Popped`: what saving registers on the stack leaves behind, and what restoring them
  does.
* `pop_restores_of_push`: registers saved on the stack are restored from it.
-/

set_option autoImplicit false

namespace FlaglessAsm

/-! ## Transfers through one base -/

/-- Transfers of registers, each at an offset of its own from one base. -/
def transfers (access : Access) (base : Register) (slots : List (Register × Int)) :
    List SymbolicInstruction :=
  slots.map fun s => .transfer access s.1 base s.2 false

section
variable {m : Machine} {base : Register}

theorem transfers_append (access : Access) (slots behind : List (Register × Int)) :
    transfers access base (slots ++ behind)
      = transfers access base slots ++ transfers access base behind :=
  List.map_append

/-- Loads change nothing but the registers they load. -/
theorem sameExcept_loads (m : Machine) (base : Register) (slots : List (Register × Int)) :
    m.SameExcept (slots.map Prod.fst) (m.run (transfers .load base slots)) := by
  induction slots generalizing m with
  | nil => exact m.sameExcept_nil
  | cons s rest ih =>
    have hfirst : m.SameExcept [s.1] (m.write s.1 (m.memory (m.read base + s.2))) :=
      m.sameExcept_nil.write s.1 _
    refine (hfirst.trans (ih _)).mono fun r hr => ?_
    rw [List.mem_append, List.mem_singleton] at hr
    rw [List.map_cons, List.mem_cons]
    exact hr.symm

/-- A register is loaded through the base as it is when its turn comes, and keeps what it got unless
it is loaded again. -/
theorem read_loads_append {r : Register} {offset : Int} {front behind : List (Register × Int)}
    (hr : r ≠ .zero) (hbehind : r ∉ behind.map Prod.fst) :
    (m.run (transfers .load base (front ++ (r, offset) :: behind))).read r
      = m.memory ((m.run (transfers .load base front)).read base + offset) := by
  have hfront := sameExcept_loads m base front
  rw [transfers_append, Machine.run_append]
  generalize m.run (transfers .load base front) = n at hfront ⊢
  calc (n.run (transfers .load base ((r, offset) :: behind))).read r
      = (n.write r (n.memory (n.read base + offset))).read r :=
        (sameExcept_loads _ base behind).read_eq r hbehind
    _ = n.memory (n.read base + offset) := Machine.read_write_self n hr _
    _ = m.memory (n.read base + offset) := by rw [hfront.memory_eq]

/-- Stores change no register. -/
theorem read_stores (m : Machine) (slots : List (Register × Int)) (r : Register) :
    (m.run (transfers .store base slots)).read r = m.read r := by
  induction slots generalizing m with
  | nil => rfl
  | cons s rest ih => exact ih _

/-- Stores change no cell but those they store to. -/
theorem memory_stores_of_forall_ne {slots : List (Register × Int)} {a : Int}
    (h : ∀ s ∈ slots, a ≠ m.read base + s.2) :
    (m.run (transfers .store base slots)).memory a = m.memory a := by
  induction slots generalizing m with
  | nil => rfl
  | cons s rest ih =>
    rw [List.forall_mem_cons] at h
    have hfirst : (m.store (m.read base + s.2) (m.read s.1)).memory a = m.memory a :=
      m.memory_store_of_ne h.1 _
    exact (ih (m := m.store _ _) h.2).trans hfirst

/-- A cell holds the register that was stored to it, if there is only one. -/
theorem memory_stores {slots : List (Register × Int)} {r : Register} {offset : Int}
    (hmem : (r, offset) ∈ slots) (honly : ∀ s ∈ slots, s.2 = offset → s.1 = r) :
    (m.run (transfers .store base slots)).memory (m.read base + offset) = m.read r := by
  induction slots generalizing m with
  | nil => cases hmem
  | cons s rest ih =>
    rw [List.forall_mem_cons] at honly
    by_cases hrest : (r, offset) ∈ rest
    · exact ih hrest honly.2
    · obtain rfl : (r, offset) = s := (List.mem_cons.1 hmem).resolve_right hrest
      have hother : ∀ s ∈ rest, m.read base + offset ≠ m.read base + s.2 := by
        intro s hs heq
        have hoffset : s.2 = offset := (Int.add_left_cancel heq).symm
        obtain rfl := hoffset
        obtain rfl := honly.2 s hs rfl
        exact hrest hs
      refine (memory_stores_of_forall_ne (m := m.store _ _) hother).trans ?_
      exact m.memory_store_self _ _

/-! ## Moving the base -/

theorem step_moveBy {delta : Int} (h : delta.natAbs < UInt32.size) :
    m.step (moveBy base delta) = m.write base (m.read base + delta) := by
  have hword : ((Word.ofNat? delta.natAbs).getD 0xFFFFFFFF).toNat = delta.natAbs := by
    rw [Word.ofNat?, if_pos h, Option.getD_some, UInt32.toNat_ofNat_of_lt' h]
  rw [moveBy, Machine.step, Machine.readSource, hword]
  congr 1
  split <;> rw [AluOp.apply] <;> omega

/-- A base is moved by a number that fits the instruction. -/
theorem natAbs_lt_of_isSome_wordAt? {t : SymbolTable} {pc : Address} {delta : Int}
    (h : ((moveBy base delta).wordAt? t pc).isSome = true) : delta.natAbs < UInt32.size := by
  by_cases hlt : delta.natAbs < UInt32.size
  · exact hlt
  · have hrange := isSome_toOption_encode_iff.1 h
    rw [Word.ofNat?, if_neg hlt] at hrange
    have hmax : ¬ (0xFFFFFFFF : Word).toNat < 2 ^ 8 := by decide
    exact absurd hrange hmax

end

/-! ## Slots of a list -/

/-- The registers of a list with their offsets from the base of a block, when `k` registers stand
before them. -/
def blockSlotsFrom (k : Nat) (registers : List Register) : List (Register × Int) :=
  (registers.zipIdx k).map fun s => (s.1, slotSize * s.2)

/-- The registers of a list with their offsets from the stack pointer before it is moved, the last
one first. -/
def pushSlots (registers : List Register) : List (Register × Int) :=
  registers.reverse.zipIdx.map fun s => (s.1, -slotSize * (s.2 + 1))

section
variable {registers : List Register}

theorem blockTransfers_eq (access : Access) (base : Register) (registers : List Register) :
    blockTransfers access base registers = transfers access base (blockSlotsFrom 0 registers) := by
  rw [blockTransfers, transfers, blockSlotsFrom, List.map_map]
  rfl

theorem map_fst_blockSlotsFrom (k : Nat) (registers : List Register) :
    (blockSlotsFrom k registers).map Prod.fst = registers := by
  rw [blockSlotsFrom, List.map_map]
  exact List.zipIdx_map_fst k registers

theorem blockSlotsFrom_append_cons (front : List Register) (r : Register)
    (behind : List Register) :
    blockSlotsFrom 0 (front ++ r :: behind)
      = blockSlotsFrom 0 front
        ++ (r, 4 * (front.length : Int)) :: blockSlotsFrom (front.length + 1) behind := by
  simp [blockSlotsFrom, List.zipIdx_append, slotSize]

theorem mem_blockSlotsFrom {r : Register} {offset : Int} :
    (r, offset) ∈ blockSlotsFrom 0 registers ↔
      ∃ k : Nat, registers[k]? = some r ∧ offset = 4 * k := by
  simp [blockSlotsFrom, slotSize, List.mem_zipIdx_iff_getElem?, eq_comm]

/-- The first register of a list is saved lowest. -/
theorem mem_pushSlots {r : Register} {offset : Int} :
    (r, offset) ∈ pushSlots registers ↔
      ∃ k : Nat, registers[k]? = some r ∧ offset = 4 * k - 4 * registers.length := by
  have hslot : (r, offset) ∈ pushSlots registers ↔
      ∃ j : Nat, registers.reverse[j]? = some r ∧ offset = -4 * (j + 1) := by
    simp [pushSlots, slotSize, List.mem_zipIdx_iff_getElem?, eq_comm]
  rw [hslot]
  constructor
  · rintro ⟨j, hj, rfl⟩
    have hlt : j < registers.length := by
      rw [← List.length_reverse]
      exact (List.getElem?_eq_some_iff.1 hj).1
    rw [List.getElem?_reverse hlt] at hj
    exact ⟨_, hj, by omega⟩
  · rintro ⟨k, hk, rfl⟩
    have hlt : k < registers.length := (List.getElem?_eq_some_iff.1 hk).1
    refine ⟨registers.length - 1 - k, ?_, by omega⟩
    rw [List.getElem?_reverse (by omega)]
    convert hk using 2
    omega

end

/-! ## Saving -/

/-- The second machine is the first one after some registers have been saved on its stack. -/
structure Pushed (registers : List Register) (m n : Machine) : Prop where
  read_eq : ∀ r, r ≠ .sp → n.read r = m.read r
  read_sp : n.read .sp = m.read .sp - 4 * registers.length
  memory_slot : ∀ (k : Nat) r, registers[k]? = some r →
    n.memory (m.read .sp - 4 * registers.length + 4 * k) = m.read r
  memory_eq : ∀ a, (∀ k < registers.length, a ≠ m.read .sp - 4 * registers.length + 4 * k) →
    n.memory a = m.memory a

section
variable {registers : List Register}

/-- Saving registers is storing them and moving the stack pointer down. -/
theorem run_expandPush {is : List SymbolicInstruction} (hsize : 4 * registers.length < UInt32.size)
    (h : expandPush [.registerList registers] = .ok is) (m : Machine) :
    m.run is = (m.run (transfers .store .sp (pushSlots registers))).write .sp
      (m.read .sp - 4 * registers.length) := by
  have his : is = transfers .store .sp (pushSlots registers)
      ++ [moveBy .sp (-slotSize * registers.length)] := by
    obtain rfl := Except.ok.inj h
    rw [transfers, pushSlots, List.map_map]
    rfl
  rw [his, Machine.run_append, Machine.run_cons, Machine.run_nil,
    step_moveBy (by rw [slotSize]; omega), read_stores, slotSize, Int.neg_mul, ← Int.sub_eq_add_neg]

theorem pushed_of_expandPush {is : List SymbolicInstruction}
    (hsize : 4 * registers.length < UInt32.size)
    (h : expandPush [.registerList registers] = .ok is) (m : Machine) :
    Pushed registers m (m.run is) := by
  rw [run_expandPush hsize h]
  refine ⟨fun r hr => ?_, Machine.read_write_self _ (by decide) _, fun k r hk => ?_,
    fun a ha => ?_⟩
  · rw [Machine.read_write_of_ne _ hr, read_stores]
  · have haddress : m.read .sp - 4 * registers.length + 4 * k
        = m.read .sp + (4 * k - 4 * registers.length) := by omega
    rw [Machine.memory_write, haddress]
    refine memory_stores (mem_pushSlots.2 ⟨k, hk, rfl⟩) fun s hs hoffset => ?_
    obtain ⟨j, hj, hs⟩ := mem_pushSlots.1 hs
    obtain rfl : j = k := by omega
    exact Option.some.inj (hj.symm.trans hk)
  · rw [Machine.memory_write]
    refine memory_stores_of_forall_ne fun s hs => ?_
    obtain ⟨k, hk, hoffset⟩ := mem_pushSlots.1 hs
    have hne := ha k (List.getElem?_eq_some_iff.1 hk).1
    omega

end

/-! ## Restoring -/

/-- The last machine is `k` after the registers that had been saved on the stack of `m` have been
restored from it. -/
structure Popped (registers : List Register) (m k n : Machine) : Prop where
  read_listed : ∀ r ∈ registers, n.read r = m.read r
  read_sp : n.read .sp = m.read .sp
  read_eq : ∀ r, r ∉ registers → r ≠ .sp → n.read r = k.read r
  memory_eq : n.memory = k.memory

section
variable {registers : List Register} {m k : Machine}

/-- Loading a block changes only the registers of its list. -/
theorem sameExcept_blockLoads (m : Machine) (base : Register) (registers : List Register) :
    m.SameExcept registers (m.run (blockTransfers .load base registers)) := by
  have h := sameExcept_loads m base (blockSlotsFrom 0 registers)
  rwa [map_fst_blockSlotsFrom, ← blockTransfers_eq] at h

/-- What a register of a block gets, unless it is listed again: the cell of its turn, from the base
as the registers in front of it have left it. -/
theorem read_blockLoads {base r : Register} {front behind : List Register} (hr : r ≠ .zero)
    (hbehind : r ∉ behind) :
    (m.run (blockTransfers .load base (front ++ r :: behind))).read r
      = m.memory ((m.run (blockTransfers .load base front)).read base + 4 * front.length) := by
  rw [blockTransfers_eq, blockTransfers_eq, blockSlotsFrom_append_cons]
  exact read_loads_append hr (by rwa [map_fst_blockSlotsFrom])

/-- Restoring registers is loading them and moving the stack pointer up. -/
theorem run_expandPop {is : List SymbolicInstruction} (hsize : 4 * registers.length < UInt32.size)
    (hsp : .sp ∉ registers) (h : expandPop [.registerList registers] = .ok is) (k : Machine) :
    k.run is = (k.run (blockTransfers .load .sp registers)).write .sp
      (k.read .sp + 4 * registers.length) := by
  obtain rfl := Except.ok.inj h
  rw [Machine.run_append, Machine.run_cons, Machine.run_nil,
    step_moveBy (by rw [slotSize]; omega), (sameExcept_blockLoads k .sp registers).read_eq .sp hsp,
    slotSize]

/-- The last occurrence of a member of a list. -/
theorem exists_append_cons_not_mem {α : Type} {a : α} {as : List α} (h : a ∈ as) :
    ∃ front behind, as = front ++ a :: behind ∧ a ∉ behind := by
  obtain ⟨behind, front, has, hmem⟩ := List.eq_append_cons_of_mem (List.mem_reverse.2 h)
  refine ⟨front.reverse, behind.reverse, ?_, by rwa [List.mem_reverse]⟩
  rw [← List.reverse_reverse as, has]
  simp

/-- Registers that are saved twice are loaded twice, with the same value. -/
theorem popped_of_expandPop {is : List SymbolicInstruction}
    (hsize : 4 * registers.length < UInt32.size)
    (hregisters : ∀ r ∈ registers, r.IsOperand) (hsp : .sp ∉ registers)
    (h : expandPop [.registerList registers] = .ok is)
    (hk : k.read .sp = m.read .sp - 4 * registers.length)
    (hslots : ∀ (j : Nat) r, registers[j]? = some r →
      k.memory (m.read .sp - 4 * registers.length + 4 * j) = m.read r) :
    Popped registers m k (k.run is) := by
  have hsame := sameExcept_blockLoads k .sp registers
  rw [run_expandPop hsize hsp h]
  refine ⟨fun r hr => ?_, ?_, fun r hr hrsp => ?_, hsame.memory_eq⟩
  · have hne : r ≠ .sp := fun heq => hsp (heq ▸ hr)
    obtain ⟨front, behind, rfl, hbehind⟩ := exists_append_cons_not_mem hr
    have hfront : .sp ∉ front := fun hmem => hsp (List.mem_append_left _ hmem)
    rw [Machine.read_write_of_ne _ hne, read_blockLoads (hregisters r hr).ne_zero hbehind,
      (sameExcept_blockLoads k .sp front).read_eq .sp hfront, hk]
    exact hslots front.length r (by simp)
  · rw [Machine.read_write_self _ (by decide), hk]
    omega
  · rw [Machine.read_write_of_ne _ hrsp, hsame.read_eq r hr]

end

/-! ## Both together -/

/-- **Registers that are saved on the stack are restored from it.**  The list may have any order and
name a register twice, but not the stack pointer.  Saving stores the registers of the list below the
stack pointer, the first one lowest, moves the stack pointer down to it and changes nothing else.
Restoring from any later state in which the stack pointer and these cells are as saving has left
them gives every register of the list and the stack pointer their values back, and changes nothing
else. -/
theorem pop_restores_of_push {text : List Char} {registers : List Register}
    (hread : readOperands text = .ok [.registerList registers]) (hsp : .sp ∉ registers)
    (t : SymbolTable) (pc : Address) :
    ∃ pushes pops, expand t .push [.registerList registers] = .ok pushes ∧
      expand t .pop [.registerList registers] = .ok pops ∧
      ((∀ i ∈ pushes ++ pops, (i.wordAt? t pc).isSome = true) →
        ∀ m : Machine, Pushed registers m (m.run pushes) ∧
          ∀ later : Machine, later.read .sp = (m.run pushes).read .sp →
            (∀ k < registers.length,
              later.memory (m.read .sp - 4 * registers.length + 4 * k)
                = (m.run pushes).memory (m.read .sp - 4 * registers.length + 4 * k)) →
            Popped registers m later (later.run pops)) := by
  refine ⟨_, _, rfl, rfl, fun hwords m => ?_⟩
  have hregisters := withinReach_of_readOperands hread _ (List.mem_singleton_self _)
  have hsize : 4 * registers.length < UInt32.size := by
    have hlt := natAbs_lt_of_isSome_wordAt?
      (hwords (moveBy .sp (-slotSize * registers.length)) (by simp))
    rw [slotSize] at hlt
    omega
  have hpushed := pushed_of_expandPush hsize rfl m
  refine ⟨hpushed, fun later hlater hcells => ?_⟩
  refine popped_of_expandPop hsize hregisters hsp rfl (hlater.trans hpushed.read_sp)
    fun k r hk => ?_
  rw [hcells k (List.getElem?_eq_some_iff.1 hk).1, hpushed.memory_slot k r hk]

/-- The frame pointer is saved twice, with the link register between, and restored although it has
been overwritten meanwhile. -/
theorem pop_restores_of_twice :
    ∃ pushes pops, expand .empty .push [.registerList [.fp, .lr, .fp]] = .ok pushes ∧
      expand .empty .pop [.registerList [.fp, .lr, .fp]] = .ok pops ∧
      Pushed [.fp, .lr, .fp] codesMachine (codesMachine.run pushes) ∧
      Popped [.fp, .lr, .fp] codesMachine ((codesMachine.run pushes).write .fp 0)
        (((codesMachine.run pushes).write .fp 0).run pops) := by
  have hread : readOperands "\x7bfp, lr, fp\x7d".toList
      = .ok [.registerList [.fp, .lr, .fp]] := toOption_eq_some_iff.1 (by decide +kernel)
  obtain ⟨pushes, pops, hpushes, hpops, hsaved⟩ :=
    pop_restores_of_push hread (by decide) .empty 0
  have hwords : ∀ i ∈ pushes ++ pops, (i.wordAt? .empty 0).isSome = true := by
    obtain rfl := Except.ok.inj hpushes
    obtain rfl := Except.ok.inj hpops
    exact List.all_eq_true.1 rfl
  obtain ⟨hpushed, hpopped⟩ := hsaved hwords codesMachine
  refine ⟨pushes, pops, hpushes, hpops, hpushed, hpopped _ ?_ fun _ _ => rfl⟩
  exact Machine.read_write_of_ne _ (by decide) 0

end FlaglessAsm
