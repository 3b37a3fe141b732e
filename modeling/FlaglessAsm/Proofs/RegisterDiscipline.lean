import FlaglessAsm.Proofs.CompareLiveness
import FlaglessAsm.Proofs.DataAccess
import FlaglessAsm.Proofs.LineParts

/-!
# Who owns which register

The instructions of a source line hold registers that the line names and registers that belong to
the assembler: the zero register, the scratch register and the two outcomes of a compare.  The
latter cannot be named by a line, so each of them only turns up where an expansion puts it.  This
file accounts for every register in every place of every instruction: it is one that the line names
at a known position, or it has one of a few fixed roles.

## What is here

* `Slot`, `Instruction.at?`, `Instruction.Writes`, `Instruction.Reads`: the places of an instruction
  that hold a register, and what it does to them.
* `namedPlaces`: which of the registers that a line names goes where.
* `Held`: why a register stands in a place.
* `AllHeld`, `allHeld_expand`: every register of an expansion is accounted for.
* `RegisterDiscipline`, `register_discipline_of_read`: what follows for the registers of the
  assembler, and for the one that stands in for `r0`.
-/

set_option autoImplicit false

namespace FlaglessAsm

/-! ## Places -/

/-- The places of an instruction that hold a register. -/
inductive Slot where
  /-- The result of an arithmetic instruction. -/
  | destination
  /-- The first operand of an arithmetic instruction. -/
  | first
  /-- The second operand of an arithmetic instruction, unless it is an immediate. -/
  | second
  /-- What a transfer loads or stores. -/
  | value
  /-- The base of the address of a transfer. -/
  | base
  /-- What a conditional branch looks at. -/
  | tested
  /-- Where a jump goes. -/
  | jump
  deriving DecidableEq

/-- The register of a second operand. -/
def Source.register? : Source → Option Register
  | .register r => some r
  | .immediate _ => none

namespace Instruction

variable {Target : Type}

/-- The register in a place of an instruction. -/
def at? : Instruction Target → Slot → Option Register
  | .alu _ rd _ _, .destination => some rd
  | .alu _ _ rn _, .first => some rn
  | .alu _ _ _ source, .second => source.register?
  | .transfer _ value _ _ _, .value => some value
  | .transfer _ _ base _ _, .base => some base
  | .branch condition _, .tested => condition.tested?
  | .exchange rm, .jump => some rm
  | _, _ => none

/-- Whether an instruction writes the register in a place. -/
def writesAt : Instruction Target → Slot → Bool
  | .alu .., .destination => true
  | .transfer .load .., .value => true
  | .transfer _ _ _ _ writeback, .base => writeback
  | _, _ => false

/-- Whether an instruction reads the register in a place. -/
def readsAt : Instruction Target → Slot → Bool
  | .alu .., .first => true
  | .alu .., .second => true
  | .transfer .store .., .value => true
  | .transfer .., .base => true
  | .branch .., .tested => true
  | .exchange _, .jump => true
  | _, _ => false

/-- An instruction writes a register. -/
def Writes (i : Instruction Target) (r : Register) : Prop :=
  ∃ slot, i.at? slot = some r ∧ i.writesAt slot = true

/-- An instruction reads a register. -/
def Reads (i : Instruction Target) (r : Register) : Prop :=
  ∃ slot, i.at? slot = some r ∧ i.readsAt slot = true

section
variable {P : Slot → Register → Prop}

theorem forall_at?_alu {op : AluOp} {rd rn : Register} {source : Source}
    (hd : P .destination rd) (hn : P .first rn)
    (hs : ∀ r, source.register? = some r → P .second r) :
    ∀ slot r, (alu op rd rn source : Instruction Target).at? slot = some r → P slot r := by
  intro slot r h
  cases slot with
  | destination => exact Option.some.inj h ▸ hd
  | first => exact Option.some.inj h ▸ hn
  | second => exact hs r h
  | value | base | tested | jump => cases h

theorem forall_at?_transfer {access : Access} {value base : Register} {offset : Int}
    {writeback : Bool} (hv : P .value value) (hb : P .base base) :
    ∀ slot r, (transfer access value base offset writeback : Instruction Target).at? slot = some r →
      P slot r := by
  intro slot r h
  cases slot with
  | value => exact Option.some.inj h ▸ hv
  | base => exact Option.some.inj h ▸ hb
  | destination | first | second | tested | jump => cases h

end
end Instruction

/-! ## Registers that a line names -/

/-- Where an addition or subtraction puts the registers that it names. -/
def sumPlaces : List Operand → List (Nat × Slot × Nat)
  | [_, _] => [(0, .destination, 0), (0, .first, 0), (0, .second, 1)]
  | _ => [(0, .destination, 0), (0, .first, 1), (0, .second, 2)]

/-- Where a shift puts the registers that it names. -/
def shiftPlaces : List Operand → List (Nat × Slot × Nat)
  | [_, _, .register _] => [(0, .destination, 0), (0, .first, 1), (0, .second, 2)]
  | _ => [(1, .destination, 0), (1, .first, 1)]

/-- Where a compare puts the registers that it names. -/
def comparePlaces : List Operand → List (Nat × Slot × Nat)
  | [_, .register _] => [(0, .first, 0), (0, .second, 1), (1, .first, 1), (1, .second, 0)]
  | _ => [(1, .first, 0), (2, .second, 0)]

/-- Where a load or store of one register puts the registers that it names. -/
def transferPlaces : List Operand → List (Nat × Slot × Nat)
  | [_, .memory _ _ false] => [(0, .value, 0), (0, .base, 1)]
  | [_, .memory _ _ true] => [(0, .destination, 1), (0, .first, 1), (1, .value, 0), (1, .base, 1)]
  | [_, _] => [(0, .value, 0), (0, .destination, 0)]
  | _ => [(0, .value, 0), (0, .base, 1), (1, .destination, 1), (1, .first, 1)]

/-- Where a transfer of a list of `n` registers puts its base, which it names first, and the
registers of the list. -/
def blockPlaces (n : Nat) : List (Nat × Slot × Nat) :=
  ((List.range n).flatMap fun k => [(k, .value, k + 1), (k, .base, 0)])
    ++ [(n, .destination, 0), (n, .first, 0)]

/-- Where the registers that a line names end up: `(k, slot, j)` says that the place `slot` of the
instruction at position `k` holds the register that is named at position `j`. -/
def namedPlaces (operation : Operation) (operands : List Operand) : List (Nat × Slot × Nat) :=
  let n := (namedRegisters operands).length
  match operation with
  | .add | .sub => sumPlaces operands
  | .mov => [(0, .destination, 0), (0, .second, 1)]
  | .lsl => shiftPlaces operands
  | .cmp => comparePlaces operands
  | .ldr | .str => transferPlaces operands
  | .push => (List.range n).map fun k => (k, .value, n - 1 - k)
  | .pop => (List.range n).map fun k => (k, .value, k)
  | .ldm | .stm => blockPlaces (n - 1)
  | .bx => [(0, .jump, 0)]
  | .b | .bge | .ble | .blt | .bgt | .nop | .word => []

/-! ## Registers in their places -/

/-- A shift or a compare whose last operand is an immediate, for which it needs a register. -/
def NeedsScratch (operation : Operation) (operands : List Operand) : Prop :=
  (operation = .lsl ∨ operation = .cmp) ∧ ∃ v, operands.getLast? = some (.immediate v)

/-- Why a register stands in a place of the instruction at a position of an expansion. -/
inductive Held (t : SymbolTable) (operation : Operation) (operands : List Operand)
    (is : List SymbolicInstruction) (k : Nat) (i : SymbolicInstruction) : Slot → Register → Prop
  /-- The line names it. -/
  | named {slot : Slot} {j : Nat} {r : Register}
      (hplace : (k, slot, j) ∈ namedPlaces operation operands)
      (hr : (namedRegisters operands)[j]? = some r) : Held t operation operands is k i slot r
  /-- A move has no first operand. -/
  | moved {rd : Register} {source : Source} (hi : i = .alu .mov rd .zero source) :
      Held t operation operands is k i .first .zero
  /-- The address of a data label is an offset from zero. -/
  | dataLabel {access : Access} {value : Register} {name : String} {a : Address}
      (hoperands : operands = [.register value, .label name])
      (hname : t.get? name = some (.data a))
      (hi : i = .transfer access value .zero a.toNat false) :
      Held t operation operands is k i .base .zero
  /-- An immediate is moved to the scratch register in front of everything else. -/
  | scratchMove {w : Word} (hneeds : NeedsScratch operation operands) (hk : k = 0)
      (hi : i = moveTo .scratch (.immediate w)) :
      Held t operation operands is k i .destination .scratch
  /-- From there it is shifted by or compared with. -/
  | scratchUse {slot : Slot} {op : AluOp} {rd rn : Register} {source : Source} {w : Word}
      (hneeds : NeedsScratch operation operands) (hk : 0 < k)
      (hhead : is.head? = some (moveTo .scratch (.immediate w)))
      (hi : i = .alu op rd rn source) (hop : op = .lsl ∨ op = .slt)
      (hslot : slot = .first ∨ slot = .second) :
      Held t operation operands is k i slot .scratch
  /-- A compare leaves its outcomes behind. -/
  | outcome {front : List SymbolicInstruction} {a b r : Register} (hoperation : operation = .cmp)
      (his : is = front ++ orderTests a b) (hi : i ∈ orderTests a b)
      (hr : r = .lessThan ∨ r = .greaterThan) :
      Held t operation operands is k i .destination r
  /-- A conditional branch looks at one of them. -/
  | tested {condition : Condition} {target : String} {r : Register}
      (hoperation : operation.condition? = some condition) (hi : i = .branch condition target)
      (hr : condition.tested? = some r) : Held t operation operands is k i .tested r
  /-- The stack pointer need not be named. -/
  | stack {slot : Slot} (hoperation : operation = .push ∨ operation = .pop)
      (hslot : slot = .base ∨ slot = .destination ∨ slot = .first) :
      Held t operation operands is k i slot .sp

/-- Every register in every place of the instructions of an expansion is accounted for. -/
def AllHeld (t : SymbolTable) (operation : Operation) (operands : List Operand)
    (x : Except Cause (List SymbolicInstruction)) : Prop :=
  ∀ is, x = .ok is → ∀ k i, is[k]? = some i → ∀ slot r, i.at? slot = some r →
    Held t operation operands is k i slot r

theorem forall_getElem?_cons {α : Type} {P : Nat → α → Prop} {a : α} {as : List α} (h : P 0 a)
    (hrest : ∀ k x, as[k]? = some x → P (k + 1) x) : ∀ k x, (a :: as)[k]? = some x → P k x := by
  intro k x hk
  cases k with
  | zero => exact Option.some.inj hk ▸ h
  | succ k => exact hrest k x hk

theorem forall_getElem?_nil {α : Type} {P : Nat → α → Prop} :
    ∀ k x, ([] : List α)[k]? = some x → P k x := by
  intro k x hk
  simp at hk

theorem forall_getElem?_append {α : Type} {P : Nat → α → Prop} {as bs : List α}
    (has : ∀ k x, as[k]? = some x → P k x)
    (hbs : ∀ k x, bs[k]? = some x → P (as.length + k) x) :
    ∀ k x, (as ++ bs)[k]? = some x → P k x := by
  intro k x hk
  rw [List.getElem?_append] at hk
  split at hk
  · exact has k x hk
  · have hx := hbs (k - as.length) x hk
    rwa [Nat.add_sub_cancel' (by omega)] at hx

section
variable {t : SymbolTable} {operation : Operation} {operands : List Operand}

theorem exists_of_immediateSource {v : Int} {s : Source} (h : immediateSource v = .ok s) :
    ∃ w, s = .immediate w := by
  unfold immediateSource at h
  split at h
  · next w _ => exact ⟨w, (Except.ok.inj h).symm⟩
  · cases h

theorem eq_of_sourceOf {o : Operand} {s : Source} (h : sourceOf o = .ok s) {r : Register}
    (hr : s.register? = some r) : o = .register r := by
  unfold sourceOf at h
  split at h
  · obtain rfl := Except.ok.inj h
    rw [Option.some.inj hr]
  · obtain ⟨w, rfl⟩ := exists_of_immediateSource h
    cases hr
  · cases h

theorem exists_of_sum {op opposite : AluOp} {rd rn : Register} {source : Operand}
    {is : List SymbolicInstruction} (h : sum op opposite rd rn source = .ok is) :
    ∃ op' s, is = [.alu op' rd rn s] ∧ ∀ r, s.register? = some r → source = .register r := by
  unfold sum at h
  split at h
  · split at h
    · obtain ⟨s, hs, rfl⟩ := map_eq_ok_iff.1 h
      obtain ⟨w, rfl⟩ := exists_of_immediateSource hs
      exact ⟨opposite, _, rfl, fun r hr => by cases hr⟩
    · obtain ⟨s, hs, rfl⟩ := map_eq_ok_iff.1 h
      obtain ⟨w, rfl⟩ := exists_of_immediateSource hs
      exact ⟨op, _, rfl, fun r hr => by cases hr⟩
  · obtain ⟨s, hs, rfl⟩ := map_eq_ok_iff.1 h
    exact ⟨op, s, rfl, fun r hr => eq_of_sourceOf hs hr⟩

theorem allHeld_expandSum (hoperation : operation = .add ∨ operation = .sub)
    (op opposite : AluOp) : AllHeld t operation operands (expandSum op opposite operands) := by
  intro is h
  have hplaces (os : List Operand) : namedPlaces operation os = sumPlaces os := by
    rcases hoperation with rfl | rfl <;> rfl
  unfold expandSum at h
  split at h
  · obtain ⟨op', s, rfl, hs⟩ := exists_of_sum h
    refine forall_getElem?_cons (Instruction.forall_at?_alu ?_ ?_ fun r hr => ?_)
      forall_getElem?_nil
    · exact .named (j := 0) (by simp [hplaces, sumPlaces]) rfl
    · exact .named (j := 1) (by simp [hplaces, sumPlaces]) rfl
    · obtain rfl := hs r hr
      exact .named (j := 2) (by simp [hplaces, sumPlaces]) rfl
  · obtain ⟨op', s, rfl, hs⟩ := exists_of_sum h
    refine forall_getElem?_cons (Instruction.forall_at?_alu ?_ ?_ fun r hr => ?_)
      forall_getElem?_nil
    · exact .named (j := 0) (by simp [hplaces, sumPlaces]) rfl
    · exact .named (j := 0) (by simp [hplaces, sumPlaces]) rfl
    · obtain rfl := hs r hr
      exact .named (j := 1) (by simp [hplaces, sumPlaces]) rfl
  · cases h

theorem allHeld_expandMove : AllHeld t .mov operands (expandMove operands) := by
  intro is h
  unfold expandMove at h
  split at h
  · obtain ⟨s, hs, rfl⟩ := map_eq_ok_iff.1 h
    refine forall_getElem?_cons (Instruction.forall_at?_alu ?_ (.moved rfl) fun r hr => ?_)
      forall_getElem?_nil
    · exact .named (j := 0) (by simp [namedPlaces]) rfl
    · obtain rfl := eq_of_sourceOf hs hr
      exact .named (j := 1) (by simp [namedPlaces]) rfl
  · cases h

theorem allHeld_expandShift : AllHeld t .lsl operands (expandShift operands) := by
  intro is h
  unfold expandShift at h
  split at h
  · obtain rfl := Except.ok.inj h
    refine forall_getElem?_cons (Instruction.forall_at?_alu ?_ ?_ fun r hr => ?_)
      forall_getElem?_nil
    · exact .named (j := 0) (by simp [namedPlaces, shiftPlaces]) rfl
    · exact .named (j := 1) (by simp [namedPlaces, shiftPlaces]) rfl
    · obtain rfl := Option.some.inj hr
      exact .named (j := 2) (by simp [namedPlaces, shiftPlaces]) rfl
  · next rd rn amount =>
    obtain ⟨s, hs, rfl⟩ := map_eq_ok_iff.1 h
    obtain ⟨w, rfl⟩ := exists_of_immediateSource hs
    have hneeds : NeedsScratch .lsl [.register rd, .register rn, .immediate amount] :=
      ⟨.inl rfl, amount, rfl⟩
    refine forall_getElem?_cons (Instruction.forall_at?_alu (.scratchMove hneeds rfl rfl)
      (.moved rfl) fun r hr => by cases hr) ?_
    refine forall_getElem?_cons (Instruction.forall_at?_alu ?_ ?_ fun r hr => ?_)
      forall_getElem?_nil
    · exact .named (j := 0) (by simp [namedPlaces, shiftPlaces]) rfl
    · exact .named (j := 1) (by simp [namedPlaces, shiftPlaces]) rfl
    · obtain rfl := Option.some.inj hr
      exact .scratchUse hneeds (Nat.succ_pos 0) rfl rfl (.inl rfl) (.inr rfl)
  · cases h

theorem allHeld_expandCompare : AllHeld t .cmp operands (expandCompare operands) := by
  intro is h
  unfold expandCompare at h
  split at h
  · next a b =>
    obtain rfl := Except.ok.inj h
    have houtcome {k : Nat} {i : SymbolicInstruction} {r : Register} (hi : i ∈ orderTests a b)
        (hr : r = .lessThan ∨ r = .greaterThan) :
        Held t .cmp [.register a, .register b] (orderTests a b) k i .destination r :=
      .outcome rfl (List.nil_append _).symm hi hr
    refine forall_getElem?_cons (Instruction.forall_at?_alu
      (houtcome (List.mem_cons_self ..) (.inl rfl)) ?_ fun r hr => ?_) ?_
    · exact .named (j := 0) (by simp [namedPlaces, comparePlaces]) rfl
    · obtain rfl := Option.some.inj hr
      exact .named (j := 1) (by simp [namedPlaces, comparePlaces]) rfl
    · refine forall_getElem?_cons (Instruction.forall_at?_alu
        (houtcome (by simp [orderTests]) (.inr rfl)) ?_ fun r hr => ?_) forall_getElem?_nil
      · exact .named (j := 1) (by simp [namedPlaces, comparePlaces]) rfl
      · obtain rfl := Option.some.inj hr
        exact .named (j := 0) (by simp [namedPlaces, comparePlaces]) rfl
  · next a v =>
    obtain ⟨s, hs, rfl⟩ := map_eq_ok_iff.1 h
    obtain ⟨w, rfl⟩ := exists_of_immediateSource hs
    have hneeds : NeedsScratch .cmp [.register a, .immediate v] := ⟨.inr rfl, v, rfl⟩
    have houtcome {k : Nat} {i : SymbolicInstruction} {r : Register}
        (hi : i ∈ orderTests a .scratch) (hr : r = .lessThan ∨ r = .greaterThan) :
        Held t .cmp [.register a, .immediate v]
          (moveTo .scratch (.immediate w) :: orderTests a .scratch) k i .destination r :=
      .outcome rfl (List.singleton_append).symm hi hr
    refine forall_getElem?_cons (Instruction.forall_at?_alu (.scratchMove hneeds rfl rfl)
      (.moved rfl) fun r hr => by cases hr) ?_
    refine forall_getElem?_cons (Instruction.forall_at?_alu
      (houtcome (List.mem_cons_self ..) (.inl rfl)) ?_ fun r hr => ?_) ?_
    · exact .named (j := 0) (by simp [namedPlaces, comparePlaces]) rfl
    · obtain rfl := Option.some.inj hr
      exact .scratchUse hneeds (Nat.succ_pos 0) rfl rfl (.inr rfl) (.inr rfl)
    · refine forall_getElem?_cons (Instruction.forall_at?_alu
        (houtcome (by simp [orderTests]) (.inr rfl)) ?_ fun r hr => ?_) forall_getElem?_nil
      · exact .scratchUse hneeds (Nat.succ_pos 1) rfl rfl (.inr rfl) (.inl rfl)
      · obtain rfl := Option.some.inj hr
        exact .named (j := 0) (by simp [namedPlaces, comparePlaces]) rfl
  · cases h

theorem allHeld_expandTransfer (hoperation : operation = .ldr ∨ operation = .str)
    (access : Access) : AllHeld t operation operands (expandTransfer t access operands) := by
  intro is h
  have hplaces (os : List Operand) : namedPlaces operation os = transferPlaces os := by
    rcases hoperation with rfl | rfl <;> rfl
  unfold expandTransfer at h
  split at h
  · split at h
    · next value base offset =>
      obtain rfl := Except.ok.inj h
      refine forall_getElem?_cons (Instruction.forall_at?_transfer ?_ ?_) forall_getElem?_nil
      · exact .named (j := 0) (by simp [hplaces, transferPlaces]) rfl
      · exact .named (j := 1) (by simp [hplaces, transferPlaces]) rfl
    · next value base offset =>
      obtain rfl := Except.ok.inj h
      refine forall_getElem?_cons (Instruction.forall_at?_alu ?_ ?_ fun r hr => by cases hr)
        (forall_getElem?_cons (Instruction.forall_at?_transfer ?_ ?_) forall_getElem?_nil)
      · exact .named (j := 1) (by simp [hplaces, transferPlaces]) rfl
      · exact .named (j := 1) (by simp [hplaces, transferPlaces]) rfl
      · exact .named (j := 0) (by simp [hplaces, transferPlaces]) rfl
      · exact .named (j := 1) (by simp [hplaces, transferPlaces]) rfl
    · next value base step =>
      obtain rfl := Except.ok.inj h
      refine forall_getElem?_cons (Instruction.forall_at?_transfer ?_ ?_)
        (forall_getElem?_cons (Instruction.forall_at?_alu ?_ ?_ fun r hr => by cases hr)
          forall_getElem?_nil)
      · exact .named (j := 0) (by simp [hplaces, transferPlaces]) rfl
      · exact .named (j := 1) (by simp [hplaces, transferPlaces]) rfl
      · exact .named (j := 1) (by simp [hplaces, transferPlaces]) rfl
      · exact .named (j := 1) (by simp [hplaces, transferPlaces]) rfl
    · next value name =>
      rcases expandLabelTransfer_eq_ok h with ⟨a, hname, rfl⟩ | ⟨target, a, -, -, -, rfl⟩
      · refine forall_getElem?_cons (Instruction.forall_at?_transfer ?_ (.dataLabel rfl hname rfl))
          forall_getElem?_nil
        exact .named (j := 0) (by simp [hplaces, transferPlaces]) rfl
      · refine forall_getElem?_cons (Instruction.forall_at?_alu ?_ (.moved rfl) fun r hr => by
          cases hr) forall_getElem?_nil
        exact .named (j := 0) (by simp [hplaces, transferPlaces]) rfl
    · cases h
  · cases h

/-! ## Lists of registers -/

theorem getElem?_blockTransfers (access : Access) (base : Register) (registers : List Register)
    (k : Nat) :
    (blockTransfers access base registers)[k]?
      = registers[k]?.map fun r => .transfer access r base (slotSize * k) false := by
  simp only [blockTransfers, List.getElem?_map, List.getElem?_zipIdx, Option.map_map, Nat.zero_add]
  rfl

theorem length_blockTransfers (access : Access) (base : Register) (registers : List Register) :
    (blockTransfers access base registers).length = registers.length := by
  simp [blockTransfers]

theorem allHeld_expandPush : AllHeld t .push operands (expandPush operands) := by
  intro is h
  unfold expandPush at h
  split at h
  · next registers =>
    obtain rfl := Except.ok.inj h
    have hnamed : namedRegisters [.registerList registers] = registers := List.append_nil _
    refine forall_getElem?_append (fun k i hi => ?_) (forall_getElem?_cons
      (Instruction.forall_at?_alu (.stack (.inl rfl) (.inr (.inl rfl)))
        (.stack (.inl rfl) (.inr (.inr rfl))) fun r hr => by cases hr) forall_getElem?_nil)
    rw [List.getElem?_map, List.getElem?_zipIdx, Option.map_map] at hi
    obtain ⟨r, hr, rfl⟩ := Option.map_eq_some_iff.1 hi
    have hk : k < registers.length := by
      simpa using (List.getElem?_eq_some_iff.1 hr).1
    rw [List.getElem?_reverse hk] at hr
    refine Instruction.forall_at?_transfer ?_ (.stack (.inl rfl) (.inl rfl))
    exact .named (j := registers.length - 1 - k) (by simpa [namedPlaces, hnamed] using hk)
      (by rw [hnamed]; exact hr)
  · cases h

theorem allHeld_expandPop : AllHeld t .pop operands (expandPop operands) := by
  intro is h
  unfold expandPop at h
  split at h
  · next registers =>
    obtain rfl := Except.ok.inj h
    have hnamed : namedRegisters [.registerList registers] = registers := List.append_nil _
    refine forall_getElem?_append (fun k i hi => ?_) (forall_getElem?_cons
      (Instruction.forall_at?_alu (.stack (.inr rfl) (.inr (.inl rfl)))
        (.stack (.inr rfl) (.inr (.inr rfl))) fun r hr => by cases hr) forall_getElem?_nil)
    rw [getElem?_blockTransfers] at hi
    obtain ⟨r, hr, rfl⟩ := Option.map_eq_some_iff.1 hi
    have hk : k < registers.length := (List.getElem?_eq_some_iff.1 hr).1
    refine Instruction.forall_at?_transfer ?_ (.stack (.inr rfl) (.inl rfl))
    exact .named (j := k) (by simpa [namedPlaces, hnamed] using hk)
      (by rw [hnamed]; exact hr)
  · cases h

theorem namedRegisters_block {first : Operand} {base : Register} {moved : Bool}
    (h : blockBase? first = some (base, moved)) (registers : List Register) :
    namedRegisters [first, .registerList registers] = base :: registers := by
  have hfirst : first.registers = [base] := by
    unfold blockBase? at h
    split at h
    · obtain ⟨rfl, -⟩ := Prod.mk.inj (Option.some.inj h)
      rfl
    · obtain ⟨rfl, -⟩ := Prod.mk.inj (Option.some.inj h)
      rfl
    · cases h
  show first.registers ++ (registers ++ []) = _
  rw [hfirst, List.append_nil, List.singleton_append]

theorem allHeld_expandBlock (hoperation : operation = .ldm ∨ operation = .stm)
    (access : Access) : AllHeld t operation operands (expandBlock access operands) := by
  intro is h
  have hplaces (os : List Operand) :
      namedPlaces operation os = blockPlaces ((namedRegisters os).length - 1) := by
    rcases hoperation with rfl | rfl <;> rfl
  unfold expandBlock at h
  split at h
  · cases h
  · next first rest =>
    split at h
    · cases h
    · next base moved registers hbase =>
      obtain rfl := Except.ok.inj h
      have hnamed := namedRegisters_block hbase registers
      refine forall_getElem?_append (fun k i hi => ?_) ?_
      · rw [getElem?_blockTransfers] at hi
        obtain ⟨r, hr, rfl⟩ := Option.map_eq_some_iff.1 hi
        have hk : k < registers.length := (List.getElem?_eq_some_iff.1 hr).1
        refine Instruction.forall_at?_transfer ?_ ?_
        · exact .named (j := k + 1) (by simp [hplaces, blockPlaces, hnamed, hk])
            (by rw [hnamed]; exact hr)
        · exact .named (j := 0) (by simp [hplaces, blockPlaces, hnamed, hk]) (by rw [hnamed]; rfl)
      · have hplace (slot : Slot) (hslot : slot = .destination ∨ slot = .first) :
            (registers.length, slot, 0)
              ∈ namedPlaces operation [first, .registerList registers] := by
          rcases hslot with rfl | rfl <;> simp [hplaces, blockPlaces, hnamed]
        rw [length_blockTransfers]
        split
        · refine forall_getElem?_cons (Instruction.forall_at?_alu ?_ ?_ fun r hr => by cases hr)
            forall_getElem?_nil
          · exact .named (hplace .destination (.inl rfl)) (by rw [hnamed]; rfl)
          · exact .named (hplace .first (.inr rfl)) (by rw [hnamed]; rfl)
        · exact forall_getElem?_nil
    · cases h

/-! ## All operations -/

theorem allHeld_expandBranch {condition : Condition}
    (hcondition : operation.condition? = some condition) :
    AllHeld t operation operands (expandBranch condition operands) := by
  intro is h
  unfold expandBranch at h
  split at h
  · obtain rfl := Except.ok.inj h
    refine forall_getElem?_cons (fun slot r hr => ?_) forall_getElem?_nil
    cases slot with
    | tested => exact .tested hcondition rfl hr
    | destination | first | second | value | base | jump => cases hr
  · cases h

/-- **Every register of an expansion is accounted for.** -/
theorem allHeld_expand : AllHeld t operation operands (expand t operation operands) := by
  cases operation with
  | add => exact allHeld_expandSum (.inl rfl) .add .sub
  | sub => exact allHeld_expandSum (.inr rfl) .sub .add
  | mov => exact allHeld_expandMove
  | lsl => exact allHeld_expandShift
  | cmp => exact allHeld_expandCompare
  | ldr => exact allHeld_expandTransfer (.inl rfl) .load
  | str => exact allHeld_expandTransfer (.inr rfl) .store
  | push => exact allHeld_expandPush
  | pop => exact allHeld_expandPop
  | ldm => exact allHeld_expandBlock (.inl rfl) .load
  | stm => exact allHeld_expandBlock (.inr rfl) .store
  | b | bge | ble | blt | bgt => exact allHeld_expandBranch rfl
  | bx =>
    intro is h
    simp only [expand] at h
    split at h
    · obtain rfl := Except.ok.inj h
      refine forall_getElem?_cons (fun slot r hr => ?_) forall_getElem?_nil
      cases slot with
      | jump => exact .named (j := 0) (by simp [namedPlaces]) hr
      | destination | first | second | value | base | tested => cases hr
    · cases h
  | nop =>
    intro is h
    simp only [expand] at h
    split at h
    · obtain rfl := Except.ok.inj h
      exact forall_getElem?_cons (fun slot r hr => by cases hr) forall_getElem?_nil
    · cases h
  | word =>
    intro is h
    cases h

end

/-! ## Registers of the assembler -/

theorem WithinReach.isOperand_of_named {operands : List Operand} (h : WithinReach operands)
    {j : Nat} {r : Register} (hr : (namedRegisters operands)[j]? = some r) : r.IsOperand := by
  obtain ⟨o, ho, hmem⟩ := List.mem_flatMap.1 (List.mem_of_getElem? hr)
  exact h o ho r hmem

namespace Held

variable {t : SymbolTable} {operation : Operation} {operands : List Operand}
  {is : List SymbolicInstruction} {k : Nat} {i : SymbolicInstruction} {slot : Slot} {r : Register}

theorem of_eq_zero (h : Held t operation operands is k i slot r) (hreach : WithinReach operands)
    (hr : r = .zero) :
    (slot = .first ∧ ∃ rd source, i = .alu .mov rd .zero source) ∨
    (slot = .base ∧ ∃ access value name a, operands = [.register value, .label name] ∧
      t.get? name = some (.data a) ∧ i = .transfer access value .zero a.toNat false) := by
  cases h with
  | named _ hj => exact absurd hr (hreach.isOperand_of_named hj).ne_zero
  | moved hi => exact .inl ⟨rfl, _, _, hi⟩
  | dataLabel hoperands hname hi => exact .inr ⟨rfl, _, _, _, _, hoperands, hname, hi⟩
  | scratchMove | scratchUse | stack => exact absurd hr (by decide)
  | outcome _ _ _ houtcome => exact absurd (hr ▸ houtcome) (by decide)
  | tested hoperation _ htested =>
    have houtcome := (Operation.tested_of_condition? hoperation htested).2
    exact absurd (hr ▸ houtcome) (by decide)

theorem of_eq_scratch (h : Held t operation operands is k i slot r) (hreach : WithinReach operands)
    (hr : r = .scratch) :
    NeedsScratch operation operands ∧
    ((slot = .destination ∧ k = 0 ∧ ∃ w, i = moveTo .scratch (.immediate w)) ∨
      ((slot = .first ∨ slot = .second) ∧ 0 < k ∧
        (∃ w, is.head? = some (moveTo .scratch (.immediate w))) ∧
        ∃ op rd rn source, i = .alu op rd rn source ∧ (op = .lsl ∨ op = .slt))) := by
  cases h with
  | named _ hj => exact absurd hr (hreach.isOperand_of_named hj).ne_scratch
  | scratchMove hneeds hk hi => exact ⟨hneeds, .inl ⟨rfl, hk, _, hi⟩⟩
  | scratchUse hneeds hk hhead hi hop hslot =>
    exact ⟨hneeds, .inr ⟨hslot, hk, ⟨_, hhead⟩, _, _, _, _, hi, hop⟩⟩
  | moved | dataLabel | stack => exact absurd hr (by decide)
  | outcome _ _ _ houtcome => exact absurd (hr ▸ houtcome) (by decide)
  | tested hoperation _ htested =>
    have houtcome := (Operation.tested_of_condition? hoperation htested).2
    exact absurd (hr ▸ houtcome) (by decide)

theorem of_outcome (h : Held t operation operands is k i slot r) (hreach : WithinReach operands)
    (hr : r = .lessThan ∨ r = .greaterThan) :
    (slot = .destination ∧ operation = .cmp ∧ ∃ front a b, is = front ++ orderTests a b ∧
      i ∈ orderTests a b) ∨
    (slot = .tested ∧ ∃ condition target, i = .branch condition target ∧
      condition.tested? = some r) := by
  cases h with
  | named _ hj =>
    have hoperand := hreach.isOperand_of_named hj
    exact absurd hr (not_or.2 ⟨hoperand.ne_lessThan, hoperand.ne_greaterThan⟩)
  | outcome hoperation his hi _ => exact .inl ⟨rfl, hoperation, _, _, _, his, hi⟩
  | tested _ hi htested => exact .inr ⟨rfl, _, _, hi, htested⟩
  | moved | dataLabel | scratchMove | scratchUse | stack => exact absurd hr (by decide)

/-- The register that stands in for `r0` is only there if it is named. -/
theorem of_eq_sourceZero (h : Held t operation operands is k i slot r) (hr : r = .sourceZero) :
    ∃ j, (k, slot, j) ∈ namedPlaces operation operands ∧
      (namedRegisters operands)[j]? = some .sourceZero := by
  cases h with
  | named hplace hj => exact ⟨_, hplace, hr ▸ hj⟩
  | moved | dataLabel | scratchMove | scratchUse | stack => exact absurd hr (by decide)
  | outcome _ _ _ houtcome => exact absurd (hr ▸ houtcome) (by decide)
  | tested hoperation _ htested =>
    have houtcome := (Operation.tested_of_condition? hoperation htested).2
    exact absurd (hr ▸ houtcome) (by decide)

end Held

/-! ## The discipline -/

/-- What holds of the registers of the assembler, and of the one that stands in for `r0`, in the
instructions of a line whose registers are named by `tokens`. -/
structure RegisterDiscipline (t : SymbolTable) (operation : Operation) (operands : List Operand)
    (tokens : List (List Char)) (is : List SymbolicInstruction) : Prop where
  /-- Nothing is written to the zero register. -/
  zero_not_written : ∀ i ∈ is, ¬ i.Writes .zero
  /-- It is the first operand of moves, or the base of an access to a data label. -/
  zero_place : ∀ i ∈ is, ∀ slot, i.at? slot = some .zero →
    (slot = .first ∧ ∃ rd source, i = .alu .mov rd .zero source) ∨
    (slot = .base ∧ ∃ access value name a, operands = [.register value, .label name] ∧
      t.get? name = some (.data a) ∧ i = .transfer access value .zero a.toNat false)
  /-- The scratch register is written by the leading move of an immediate. -/
  scratch_written : ∀ k i, is[k]? = some i → i.Writes .scratch →
    NeedsScratch operation operands ∧ k = 0 ∧ ∃ w, i = moveTo .scratch (.immediate w)
  /-- It is read by the shift or the order tests behind that move. -/
  scratch_read : ∀ k i, is[k]? = some i → i.Reads .scratch →
    NeedsScratch operation operands ∧ 0 < k ∧
      (∃ w, is.head? = some (moveTo .scratch (.immediate w))) ∧
      ∃ op rd rn source, i = .alu op rd rn source ∧ (op = .lsl ∨ op = .slt)
  /-- The outcomes of a compare are written by its two order tests. -/
  outcome_written : ∀ i ∈ is, ∀ r, r = .lessThan ∨ r = .greaterThan → i.Writes r →
    operation = .cmp ∧ ∃ front a b, is = front ++ orderTests a b ∧ i ∈ orderTests a b
  /-- They are read by conditional branches, which test them. -/
  outcome_read : ∀ i ∈ is, ∀ r, r = .lessThan ∨ r = .greaterThan → i.Reads r →
    ∃ condition target, i = .branch condition target ∧ condition.tested? = some r
  /-- The register that stands in for `r0` only stands where the line says `r0`. -/
  sourceZero_place : ∀ k i slot, is[k]? = some i → i.at? slot = some .sourceZero →
    ∃ j token, (k, slot, j) ∈ namedPlaces operation operands ∧ tokens[j]? = some token ∧
      token.map Char.toLower = ['r', '0']

theorem Instruction.readsAt_destination {Target : Type} (i : Instruction Target) :
    i.readsAt .destination = false := by
  cases i with
  | transfer access => cases access <;> rfl
  | _ => rfl

/-- **Each register of the assembler keeps its role.**  Whatever line is read as an instruction, and
whatever table its labels are looked up in, the instructions that it stands for write nothing to the
zero register, and hold the registers of the assembler in their own roles only.  The register that
stands in for `r0` is found only in places whose register the line spells `r0`, in either case. -/
theorem register_discipline_of_read {t : SymbolTable} {line : SourceLine} {mnemonic : Mnemonic}
    {operands : List Operand} {is : List SymbolicInstruction}
    (hread : Statement.read line = .ok (.instruction mnemonic operands))
    (hexpand : expand t mnemonic.operation operands = .ok is) :
    ∃ texts, line.HasParts mnemonic texts ∧
      List.Forall₂ NamesRegister (registerTokens texts operands) (namedRegisters operands) ∧
      RegisterDiscipline t mnemonic.operation operands (registerTokens texts operands) is := by
  have hreach := withinReach_of_read hread
  have hheld := allHeld_expand is hexpand
  obtain ⟨texts, hparts, -, htexts⟩ := exists_hasParts_of_read hread
  refine ⟨texts, hparts, forall₂_registerTokens htexts, ?_⟩
  have hzero : ∀ i ∈ is, ∀ slot, i.at? slot = some .zero →
      (slot = .first ∧ ∃ rd source, i = .alu .mov rd .zero source) ∨
      (slot = .base ∧ ∃ access value name a, operands = [.register value, .label name] ∧
        t.get? name = some (.data a) ∧ i = .transfer access value .zero a.toNat false) := by
    intro i hi slot hslot
    obtain ⟨k, hk⟩ := List.mem_iff_getElem?.1 hi
    exact (hheld k i hk slot _ hslot).of_eq_zero hreach rfl
  refine ⟨?_, hzero, ?_, ?_, ?_, ?_, ?_⟩
  · rintro i hi ⟨slot, hslot, hwrites⟩
    rcases hzero i hi slot hslot with ⟨rfl, _, _, rfl⟩ | ⟨rfl, access, _, _, _, -, -, rfl⟩
    · cases hwrites
    · cases access <;> cases hwrites
  · rintro k i hk ⟨slot, hslot, hwrites⟩
    obtain ⟨hneeds, ⟨-, hmove⟩ | ⟨rfl | rfl, -, -, op, rd, rn, source, rfl, -⟩⟩ :=
      (hheld k i hk slot _ hslot).of_eq_scratch hreach rfl
    · exact ⟨hneeds, hmove⟩
    · cases hwrites
    · cases hwrites
  · rintro k i hk ⟨slot, hslot, hreads⟩
    obtain ⟨hneeds, ⟨rfl, -⟩ | ⟨-, huse⟩⟩ := (hheld k i hk slot _ hslot).of_eq_scratch hreach rfl
    · simp [Instruction.readsAt_destination] at hreads
    · exact ⟨hneeds, huse⟩
  · rintro i hi r hr ⟨slot, hslot, hwrites⟩
    obtain ⟨k, hk⟩ := List.mem_iff_getElem?.1 hi
    rcases (hheld k i hk slot r hslot).of_outcome hreach hr with ⟨-, htests⟩ | ⟨rfl, _, _, rfl, -⟩
    · exact htests
    · cases hwrites
  · rintro i hi r hr ⟨slot, hslot, hreads⟩
    obtain ⟨k, hk⟩ := List.mem_iff_getElem?.1 hi
    rcases (hheld k i hk slot r hslot).of_outcome hreach hr with ⟨rfl, -⟩ | ⟨-, htested⟩
    · simp [Instruction.readsAt_destination] at hreads
    · exact htested
  · intro k i slot hk hslot
    obtain ⟨j, hplace, hj⟩ := (hheld k i hk slot _ hslot).of_eq_sourceZero rfl
    obtain ⟨token, htoken, hlower⟩ := exists_token_of_sourceZero htexts hj
    exact ⟨j, token, hplace, htoken, hlower⟩

/-- The operands of a compare of `r0` with an immediate. -/
def zeroComparands : List Operand :=
  [.register .sourceZero, .immediate 9]

/-- Such a compare holds every register of the assembler, and the one that stands in for `r0`
twice. -/
theorem register_discipline_of_compare :
    Statement.read ⟨0, "cmp R0, #9"⟩ = .ok (.instruction ⟨"cmp", .cmp⟩ zeroComparands) ∧
    expand .empty .cmp zeroComparands
      = .ok (moveTo .scratch (.immediate 9) :: orderTests .sourceZero .scratch) ∧
    ∃ texts, SourceLine.HasParts ⟨0, "cmp R0, #9"⟩ ⟨"cmp", .cmp⟩ texts ∧
      RegisterDiscipline .empty .cmp zeroComparands (registerTokens texts zeroComparands)
        (moveTo .scratch (.immediate 9) :: orderTests .sourceZero .scratch) := by
  have hread : Statement.read ⟨0, "cmp R0, #9"⟩ = .ok (.instruction ⟨"cmp", .cmp⟩ zeroComparands) :=
    toOption_eq_some_iff.1 (by decide +kernel)
  have hexpand : expand .empty .cmp zeroComparands
      = .ok (moveTo .scratch (.immediate 9) :: orderTests .sourceZero .scratch) := rfl
  obtain ⟨texts, hparts, -, hdiscipline⟩ := register_discipline_of_read hread hexpand
  exact ⟨hread, hexpand, texts, hparts, hdiscipline⟩

end FlaglessAsm
