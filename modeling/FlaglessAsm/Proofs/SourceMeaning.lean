import FlaglessAsm.Machine
import FlaglessAsm.Proofs.CompareLiveness
import FlaglessAsm.Proofs.Reading
import Mathlib.Algebra.Ring.Int.Defs

/-!
# What arithmetic and compares of a source text mean

A source instruction says what happens to the registers it names; its expansion is a short list of
machine instructions, some of which write registers of the assembler.  Here the two are compared:
the effect of the expansion is told as a few writes to the machine, one lemma per form, and the
meaning of the source instruction is read off from these.  No-ops between the instructions of an
expansion change nothing.

## What is here

* `Machine.SameExcept`: machines that differ in a few registers only.
* `WithNops`, `Machine.run_withNops`: no-ops behind instructions.
* `Machine.value?`, `Machine.result?`, `Operation.overwrites`, `Operation.order?`: the meaning of
  source instructions.
* `Computes`, `computes_expand`: the effect of arithmetic.
* `Compares`, `compares_expandCompare`: the effect of compares.
* `same_meaning_of_expand`: both agree.
-/

set_option autoImplicit false

namespace FlaglessAsm

/-! ## Machines that are almost the same -/

namespace Machine

/-- Two machines differ at most in some registers. -/
structure SameExcept (changed : List Register) (m n : Machine) : Prop where
  read_eq : ∀ r, r ∉ changed → n.read r = m.read r
  memory_eq : n.memory = m.memory

theorem sameExcept_nil (m : Machine) : m.SameExcept [] m :=
  ⟨fun _ _ => rfl, rfl⟩

theorem SameExcept.mono {changed changed' : List Register} {m n : Machine}
    (h : m.SameExcept changed n) (hsub : ∀ r ∈ changed, r ∈ changed') :
    m.SameExcept changed' n :=
  ⟨fun r hr => h.read_eq r fun hmem => hr (hsub r hmem), h.memory_eq⟩

theorem SameExcept.trans {changed changed' : List Register} {m n k : Machine}
    (h : m.SameExcept changed n) (h' : n.SameExcept changed' k) :
    m.SameExcept (changed' ++ changed) k where
  read_eq r hr := by
    rw [List.mem_append, not_or] at hr
    rw [h'.read_eq r hr.1, h.read_eq r hr.2]
  memory_eq := h'.memory_eq.trans h.memory_eq

theorem SameExcept.write {changed : List Register} {m n : Machine} (h : m.SameExcept changed n)
    (r : Register) (value : Int) : m.SameExcept (r :: changed) (n.write r value) where
  read_eq s hs := by
    rw [List.mem_cons, not_or] at hs
    rw [read_write_of_ne n hs.1, h.read_eq s hs.2]
  memory_eq := (memory_write n r value).trans h.memory_eq

end Machine

/-! ## No-ops -/

/-- Instructions with any number of no-ops behind each of them. -/
inductive WithNops {Target : Type} : List (Instruction Target) → List (Instruction Target) → Prop
  | nil : WithNops [] []
  | cons (i : Instruction Target) (count : Nat) {is js : List (Instruction Target)}
      (h : WithNops is js) : WithNops (i :: is) (i :: (List.replicate count .nop ++ js))

namespace Machine

variable {Target : Type}

theorem run_replicate_nop (m : Machine) (count : Nat) :
    m.run (List.replicate count (.nop : Instruction Target)) = m := by
  induction count with
  | zero => rfl
  | succ count ih => exact ih

/-- No-ops change nothing. -/
theorem run_withNops {is js : List (Instruction Target)} (h : WithNops is js) (m : Machine) :
    m.run js = m.run is := by
  induction h generalizing m with
  | nil => rfl
  | cons i count _ ih => rw [run_cons, run_cons, run_append, run_replicate_nop, ih]

/-! ## The meaning of source instructions -/

/-- The value of an operand that is a register or an immediate. -/
def value? (m : Machine) : Operand → Option Int
  | .register r => some (m.read r)
  | .immediate value => some value
  | _ => none

/-- The register that an addition or a subtraction sets, and the value it gets.  The first source
may be left out. -/
def sumResult? (m : Machine) (combine : Int → Int → Int) :
    List Operand → Option (Register × Int)
  | [.register rd, .register rn, source] =>
    (m.value? source).map fun b => (rd, combine (m.read rn) b)
  | [.register rd, source] => (m.value? source).map fun b => (rd, combine (m.read rd) b)
  | _ => none

/-- The register that an arithmetic instruction of a source text sets, and the value it gets. -/
def result? (m : Machine) : Operation → List Operand → Option (Register × Int)
  | .add, operands => m.sumResult? (fun a b => a + b) operands
  | .sub, operands => m.sumResult? (fun a b => a - b) operands
  | .mov, [.register rd, source] => (m.value? source).map fun b => (rd, b)
  | .lsl, [.register rd, .register rn, amount] =>
    (m.value? amount).map fun k => (rd, m.read rn * 2 ^ k.toNat)
  | _, _ => none

end Machine

namespace Operation

/-- The registers of the assembler that a source instruction overwrites. -/
def overwrites : Operation → List Operand → List Register
  | .lsl, [_, _, .immediate _] => [.scratch]
  | .cmp, [_, .immediate _] => [.greaterThan, .lessThan, .scratch]
  | .cmp, _ => [.greaterThan, .lessThan]
  | _, _ => []

/-- The order of two values that a conditional branch asks for. -/
def order? : Operation → Option (Int → Int → Prop)
  | .bge => some fun a b => a ≥ b
  | .ble => some fun a b => a ≤ b
  | .blt => some fun a b => a < b
  | .bgt => some fun a b => a > b
  | _ => none

end Operation

/-! ## Second operands -/

section
variable {m : Machine}

theorem readSource_of_immediateSource {value : Int} {source : Source}
    (h : immediateSource value = .ok source) : m.readSource source = value := by
  rw [immediateSource] at h
  split at h
  · next word hword =>
    obtain rfl := Except.ok.inj h
    exact (Word.ofInt?_eq_some_iff.1 hword).symm
  · cases h

/-- A negative number of which the opposite is an immediate is not the smallest one. -/
theorem readSource_of_negated {value : Int} {source : Source}
    (h : immediateSource (negated value) = .ok source) : m.readSource source = -value := by
  have hread : m.readSource source = negated value := readSource_of_immediateSource h
  have hlt : m.readSource source < Int64.maxValue.toInt := by
    rw [immediateSource] at h
    split at h
    · next word _ =>
      obtain rfl := Except.ok.inj h
      have hword : word.toNat < UInt32.size := word.toNat_lt_size
      have hmax : (UInt32.size : Int) < Int64.maxValue.toInt := by decide
      rw [Machine.readSource]
      omega
    · cases h
  rw [negated] at hread
  omega

theorem value?_of_sourceOf {operand : Operand} {source : Source}
    (h : sourceOf operand = .ok source) : m.value? operand = some (m.readSource source) := by
  cases operand with
  | register r =>
    obtain rfl := Except.ok.inj h
    rfl
  | immediate value => exact congrArg some (readSource_of_immediateSource h).symm
  | _ => cases h

theorem step_moveTo (rd : Register) (source : Source) :
    m.step (moveTo rd source) = m.write rd (m.readSource source) := rfl

/-! ## Effects of arithmetic -/

/-- Instructions set a register to the result of a source instruction, and change nothing else but
registers of the assembler. -/
def Computes (m : Machine) (is : List SymbolicInstruction) (overwritten : List Register)
    (result : Option (Register × Int)) : Prop :=
  ∃ rd value n, result = some (rd, value) ∧ rd.IsOperand ∧ m.SameExcept overwritten n ∧
    m.run is = n.write rd value

/-- The effect of an addition or a subtraction: a negative immediate asks for the opposite one. -/
theorem run_sum {op opposite : AluOp} {rd rn : Register} {source : Operand}
    {is : List SymbolicInstruction}
    (hopposite : ∀ a b, opposite.apply a (-b) = op.apply a b)
    (h : sum op opposite rd rn source = .ok is) :
    ∃ b, m.value? source = some b ∧ m.run is = m.write rd (op.apply (m.read rn) b) := by
  unfold sum at h
  split at h
  · next value =>
    refine ⟨value, rfl, ?_⟩
    split at h
    · obtain ⟨s, hs, rfl⟩ := map_eq_ok_iff.1 h
      have hread : m.readSource s = -value := readSource_of_negated hs
      rw [Machine.run_cons, Machine.run_nil, Machine.step, hread, hopposite]
    · obtain ⟨s, hs, rfl⟩ := map_eq_ok_iff.1 h
      have hread : m.readSource s = value := readSource_of_immediateSource hs
      rw [Machine.run_cons, Machine.run_nil, Machine.step, hread]
  · obtain ⟨s, hs, rfl⟩ := map_eq_ok_iff.1 h
    exact ⟨m.readSource s, value?_of_sourceOf hs, rfl⟩

theorem computes_expandSum (op opposite : AluOp)
    (hopposite : ∀ a b, opposite.apply a (-b) = op.apply a b) {operands : List Operand}
    {is : List SymbolicInstruction} (hreach : WithinReach operands)
    (h : expandSum op opposite operands = .ok is) :
    Computes m is [] (m.sumResult? op.apply operands) := by
  unfold expandSum at h
  split at h
  · next rd rn source =>
    obtain ⟨b, hb, hrun⟩ := run_sum (m := m) hopposite h
    refine ⟨rd, _, m, ?_, hreach.register (by simp), m.sameExcept_nil, hrun⟩
    rw [Machine.sumResult?, hb, Option.map_some]
  · next rd source =>
    obtain ⟨b, hb, hrun⟩ := run_sum (m := m) hopposite h
    refine ⟨rd, _, m, ?_, hreach.register (by simp), m.sameExcept_nil, hrun⟩
    rw [Machine.sumResult?, hb, Option.map_some]
  · cases h

theorem computes_expandMove {operands : List Operand} {is : List SymbolicInstruction}
    (hreach : WithinReach operands) (h : expandMove operands = .ok is) :
    Computes m is [] (m.result? .mov operands) := by
  unfold expandMove at h
  split at h
  · next rd source =>
    obtain ⟨s, hs, rfl⟩ := map_eq_ok_iff.1 h
    refine ⟨rd, m.readSource s, m, ?_, hreach.register (by simp), m.sameExcept_nil, rfl⟩
    rw [Machine.result?, value?_of_sourceOf hs, Option.map_some]
  · cases h

theorem apply_lsl (a b : Int) : AluOp.lsl.apply a b = a * 2 ^ b.toNat := by
  simp [AluOp.apply, Nat.shiftLeft_eq]

/-- The effect of a shift.  An immediate goes through the scratch register, which no operand is. -/
theorem computes_expandShift {operands : List Operand} {is : List SymbolicInstruction}
    (hreach : WithinReach operands) (h : expandShift operands = .ok is) :
    Computes m is (Operation.lsl.overwrites operands) (m.result? .lsl operands) := by
  unfold expandShift at h
  split at h
  · next rd rn rm =>
    obtain rfl := Except.ok.inj h
    refine ⟨rd, _, m, rfl, hreach.register (by simp), m.sameExcept_nil, ?_⟩
    rw [Machine.run_cons, Machine.run_nil, Machine.step, apply_lsl, Machine.readSource]
  · next rd rn amount =>
    obtain ⟨s, hs, rfl⟩ := map_eq_ok_iff.1 h
    have hread : m.readSource s = amount := readSource_of_immediateSource hs
    have hrn : rn.IsOperand := hreach.register (by simp)
    refine ⟨rd, _, m.write .scratch amount, rfl, hreach.register (by simp),
      m.sameExcept_nil.write .scratch amount, ?_⟩
    rw [Machine.run_cons, Machine.run_cons, Machine.run_nil, step_moveTo, hread, Machine.step,
      Machine.readSource, Machine.read_write_of_ne m hrn.ne_scratch,
      Machine.read_write_self m (by decide), apply_lsl]
  · cases h

/-- **Arithmetic computes what it says.** -/
theorem computes_expand {t : SymbolTable} {op : Operation} {operands : List Operand}
    {is : List SymbolicInstruction} (hop : op ∈ [.add, .sub, .mov, .lsl])
    (hreach : WithinReach operands) (h : expand t op operands = .ok is) :
    Computes m is (op.overwrites operands) (m.result? op operands) := by
  simp only [List.mem_cons, List.not_mem_nil, or_false] at hop
  rcases hop with rfl | rfl | rfl | rfl
  · exact computes_expandSum .add .sub Int.sub_neg hreach h
  · exact computes_expandSum .sub .add (fun _ _ => Int.sub_eq_add_neg.symm) hreach h
  · exact computes_expandMove hreach h
  · exact computes_expandShift hreach h

/-! ## Effects of compares -/

/-- The outcome of a compare of two values, as its order tests leave it. -/
def Compares (m : Machine) (a b : Int) : Prop :=
  m.read .lessThan = AluOp.slt.apply a b ∧ m.read .greaterThan = AluOp.slt.apply b a

/-- The second order test reads its registers after the first has been written. -/
theorem compares_orderTests {a b : Register} (ha : a ≠ .lessThan) (hb : b ≠ .lessThan) :
    Compares (m.run (orderTests a b)) (m.read a) (m.read b) ∧
      m.SameExcept [.greaterThan, .lessThan] (m.run (orderTests a b)) := by
  rw [orderTests, Machine.run_cons, Machine.run_cons, Machine.run_nil, Machine.step, Machine.step,
    Machine.readSource, Machine.readSource, Machine.read_write_of_ne m ha,
    Machine.read_write_of_ne m hb]
  refine ⟨⟨?_, ?_⟩, (m.sameExcept_nil.write _ _).write _ _⟩
  · rw [Machine.read_write_of_ne _ (by decide), Machine.read_write_self m (by decide)]
  · rw [Machine.read_write_self _ (by decide)]

/-- The effect of a compare. -/
theorem compares_expandCompare {operands : List Operand} {is : List SymbolicInstruction}
    (hreach : WithinReach operands) (h : expandCompare operands = .ok is) :
    ∃ a b x y, operands = [a, b] ∧ m.value? a = some x ∧ m.value? b = some y ∧
      Compares (m.run is) x y ∧ m.SameExcept (Operation.cmp.overwrites operands) (m.run is) := by
  unfold expandCompare at h
  split at h
  · next a b =>
    obtain rfl := Except.ok.inj h
    have ha : a.IsOperand := hreach.register (by simp)
    have hb : b.IsOperand := hreach.register (by simp)
    obtain ⟨hcompares, hsame⟩ := compares_orderTests (m := m) ha.ne_lessThan hb.ne_lessThan
    exact ⟨_, _, _, _, rfl, rfl, rfl, hcompares, hsame⟩
  · next a value =>
    obtain ⟨s, hs, rfl⟩ := map_eq_ok_iff.1 h
    have ha : a.IsOperand := hreach.register (by simp)
    have hread : m.readSource s = value := readSource_of_immediateSource hs
    obtain ⟨hcompares, hsame⟩ := compares_orderTests (m := m.write .scratch value)
      ha.ne_lessThan (b := .scratch) (by decide)
    rw [Machine.read_write_of_ne m ha.ne_scratch, Machine.read_write_self m (by decide)]
      at hcompares
    refine ⟨_, _, _, _, rfl, rfl, rfl, ?_⟩
    rw [Machine.run_cons, step_moveTo, hread]
    exact ⟨hcompares, (m.sameExcept_nil.write .scratch value).trans hsame⟩
  · cases h

/-- A conditional branch behind a compare is taken exactly if the values have the order it asks
for. -/
theorem Compares.holds_iff {x y : Int} (h : Compares m x y) {branch : Operation}
    {order : Int → Int → Prop} {condition : Condition} (horder : branch.order? = some order)
    (hcondition : branch.condition? = some condition) : condition.Holds m ↔ order x y := by
  obtain ⟨hless, hgreater⟩ := h
  rw [AluOp.apply] at hless hgreater
  cases branch with
  | bge | blt =>
    cases horder
    cases hcondition
    rw [Condition.Holds, hless]
    split <;> omega
  | ble | bgt =>
    cases horder
    cases hcondition
    rw [Condition.Holds, hgreater]
    split <;> omega
  | _ => cases horder

end

/-! ## Both agree -/

theorem exists_condition_of_order? {branch : Operation} {order : Int → Int → Prop}
    (h : branch.order? = some order) : ∃ condition, branch.condition? = some condition := by
  cases branch with
  | bge | ble | blt | bgt => exact ⟨_, rfl⟩
  | _ => cases h

/-- **The expansion of arithmetic and of compares keeps their meaning**, with any number of no-ops
behind its instructions.  Arithmetic sets its destination to the result that its operands had before
it, negative immediates included, and changes no other register that source text can name; after a
compare, each conditional branch is taken exactly if the two values had the order it asks for. -/
theorem same_meaning_of_expand {line : SourceLine} {mnemonic : Mnemonic} {operands : List Operand}
    {t : SymbolTable} {is js : List SymbolicInstruction}
    (hread : Statement.read line = .ok (.instruction mnemonic operands))
    (hexpand : expand t mnemonic.operation operands = .ok is) (hnops : WithNops is js)
    (m : Machine) :
    (mnemonic.operation ∈ [.add, .sub, .mov, .lsl] →
      ∃ rd value, m.result? mnemonic.operation operands = some (rd, value) ∧
        (m.run js).read rd = value ∧
        m.SameExcept (rd :: mnemonic.operation.overwrites operands) (m.run js)) ∧
    (mnemonic.operation = .cmp →
      ∃ a b x y, operands = [a, b] ∧ m.value? a = some x ∧ m.value? b = some y ∧
        m.SameExcept (mnemonic.operation.overwrites operands) (m.run js) ∧
        ∀ branch order, branch.order? = some order →
          ∀ u targets branches, expand u branch targets = .ok branches →
            ∃ condition label, branches = [.branch condition label] ∧
              (condition.Holds (m.run js) ↔ order x y)) := by
  have hreach := withinReach_of_read hread
  rw [Machine.run_withNops hnops]
  constructor
  · intro hop
    obtain ⟨rd, value, n, hresult, hrd, hsame, hrun⟩ := computes_expand (m := m) hop hreach hexpand
    refine ⟨rd, value, hresult, ?_, ?_⟩
    · rw [hrun, Machine.read_write_self n hrd.ne_zero]
    · rw [hrun]
      exact hsame.write rd value
  · intro hop
    rw [hop] at hexpand ⊢
    obtain ⟨a, b, x, y, hoperands, hx, hy, hcompares, hsame⟩ :=
      compares_expandCompare (m := m) hreach hexpand
    refine ⟨a, b, x, y, hoperands, hx, hy, hsame, ?_⟩
    intro branch order horder u targets branches hbranches
    obtain ⟨condition, hcondition⟩ := exists_condition_of_order? horder
    obtain ⟨label, rfl⟩ := expand_of_condition?_eq_some hcondition hbranches
    exact ⟨condition, label, rfl, hcompares.holds_iff horder hcondition⟩

/-- A machine in which every register holds its own code. -/
def codesMachine : Machine :=
  ⟨fun r => r.code.val, fun _ => 0⟩

/-- Subtracting a negative number from the stack pointer adds to it, and `r0`, which is kept in the
eighth register, is found to be less than nine. -/
theorem same_meaning_of_padded :
    (∃ is, expand .empty .sub [.register .fp, .register .sp, .immediate (-4)] = .ok [is] ∧
      (codesMachine.run [is, .nop, .nop]).read .fp = 16 ∧
      codesMachine.SameExcept [.fp] (codesMachine.run [is, .nop, .nop])) ∧
    ∃ move less greater,
      expand .empty .cmp [.register .sourceZero, .immediate 9] = .ok [move, less, greater] ∧
      (Condition.ifNonZero .lessThan).Holds (codesMachine.run [move, .nop, less, greater]) := by
  constructor
  · have hread : Statement.read ⟨0, "sub fp, sp, #-4"⟩
        = .ok (.instruction ⟨"sub", .sub⟩ [.register .fp, .register .sp, .immediate (-4)]) :=
      toOption_eq_some_iff.1 (by decide +kernel)
    obtain ⟨rd, value, hresult, hvalue, hsame⟩ := (same_meaning_of_expand (t := .empty) hread rfl
      (.cons _ 2 .nil) codesMachine).1 (by decide)
    obtain ⟨rfl, rfl⟩ : Register.fp = rd ∧ 16 = value := Prod.mk.inj (Option.some.inj hresult)
    exact ⟨_, rfl, hvalue, hsame⟩
  · have hread : Statement.read ⟨0, "cmp r0, #9"⟩
        = .ok (.instruction ⟨"cmp", .cmp⟩ [.register .sourceZero, .immediate 9]) :=
      toOption_eq_some_iff.1 (by decide +kernel)
    obtain ⟨a, b, x, y, hoperands, hx, hy, -, hbranch⟩ := (same_meaning_of_expand (t := .empty)
      hread rfl (.cons _ 1 (.cons _ 0 (.cons _ 0 .nil))) codesMachine).2 rfl
    obtain ⟨rfl, rfl⟩ : .register .sourceZero = a ∧ .immediate 9 = b := by
      simpa using hoperands
    obtain rfl : 8 = x := Option.some.inj hx
    obtain rfl : 9 = y := Option.some.inj hy
    obtain ⟨condition, label, hlabel, hholds⟩ :=
      hbranch .blt _ rfl .empty [.label "loop"] _ rfl
    obtain ⟨rfl, rfl⟩ := Instruction.branch.inj (List.singleton_inj.1 hlabel)
    exact ⟨_, _, _, rfl, hholds.2 (by decide)⟩

end FlaglessAsm
