import FlaglessAsm.Proofs.ImmediateText
import FlaglessAsm.Proofs.SingleLines

/-!
# Immediates are kept or refused

The immediate of a source line goes through a chain of conversions, each with a range of its own:
literals are read as 128-bit numbers, immediates are 64-bit numbers, second operands are words, and
instructions have eight bits for a magnitude.  A number that leaves the next range on its way is
refused or replaced by the nearest one in range, which is still out of range for eight bits.  So a
number that is accepted is never changed.

## What is here

* `ImmediateUse.Accepts`, `ImmediateUse.Carries`, `ImmediateUse.reported`: the numbers a line takes,
  the instructions that carry them, and the number that an error reports.
* `ImmediateUse.Expansion`, `exists_expansion_of_written`: the expansion of such a line.
* `assemble_of_expansion`, `keptBy_of_expansion`: what the assembler makes of it, by itself and in a
  longer source text.
* `ImmediateOutcome`, `immediate_kept_or_refused`: the same for the text of a line.
-/

set_option autoImplicit false

namespace FlaglessAsm

open Text

/-! ## Numbers in range -/

namespace ImmediateUse

/-- The numbers that a source instruction takes as its immediate. -/
def Accepts (v : Int) : ImmediateUse → Prop
  | .sum .. | .offset .. | .before .. | .after .. => v.natAbs ≤ 255
  | .move _ | .shift .. | .compare _ => 0 ≤ v ∧ v ≤ 255

instance (v : Int) (use : ImmediateUse) : Decidable (use.Accepts v) :=
  match use with
  | .sum .. | .offset .. | .before .. | .after .. => inferInstanceAs (Decidable (v.natAbs ≤ 255))
  | .move _ | .shift .. | .compare _ => inferInstanceAs (Decidable (0 ≤ v ∧ v ≤ 255))

/-- The number in the error for a number that is not taken. -/
def reported (v : Int) : ImmediateUse → Int
  | .sum .. => min (v.natAbs : Int) (2 ^ 63 - 1)
  | .move _ | .shift .. | .compare _ | .offset .. => v
  | .before .. | .after .. => min (v.natAbs : Int) (2 ^ 32 - 1)

end ImmediateUse

/-! ## Instructions that carry a number -/

/-- An instruction sets a register to the sum of a register and a number. -/
def Instruction.Adds (rd rn : Register) (v : Int) (d : Instruction Int) : Prop :=
  ∃ op w, (op = .add ∨ op = .sub) ∧ d = .alu op rd rn (.immediate w) ∧
    ∀ x, op.apply x w.toNat = x + v

/-- An instruction sets a register to a number. -/
def Instruction.Sets (rd : Register) (v : Int) (d : Instruction Int) : Prop :=
  ∃ w : Word, d = .alu .mov rd .zero (.immediate w) ∧ (w.toNat : Int) = v

/-- The instructions of a source instruction carry its immediate. -/
def ImmediateUse.Carries (v : Int) : ImmediateUse → List (Instruction Int) → Prop
  | .sum minus rd rn, ds => ∃ d, ds = [d] ∧ d.Adds rd rn (if minus then -v else v)
  | .move rd, ds => ∃ d, ds = [d] ∧ d.Sets rd v
  | .shift rd rn, ds =>
    ∃ d, ds = [d, .alu .lsl rd rn (.register .scratch)] ∧ d.Sets .scratch v
  | .compare r, ds =>
    ∃ d, ds = [d, .alu .slt .lessThan r (.register .scratch),
      .alu .slt .greaterThan .scratch (.register r)] ∧ d.Sets .scratch v
  | .offset access value base, ds => ds = [.transfer access value base v false]
  | .before access value base, ds =>
    ∃ d, ds = [d, .transfer access value base 0 true] ∧ d.Adds base base v
  | .after access value base, ds =>
    ∃ d, ds = [.transfer access value base 0 true, d] ∧ d.Adds base base v

/-! ## Expanding -/

/-- An instruction that is neither a branch nor written as a no-op. -/
def Instruction.IsPlain (i : SymbolicInstruction) : Prop :=
  i.isBranch = false ∧ i.unlabelled ≠ .idleMove

theorem fitsUnsigned_immediateBits_iff {n : Nat} :
    fitsUnsigned immediateBits n = true ↔ n ≤ 255 :=
  decide_eq_true_iff.trans Nat.lt_succ_iff

theorem Instruction.check_alu_immediate (op : AluOp) (rd rn : Register) (w : Word) :
    (alu op rd rn (.immediate w)).check
      = if w.toNat ≤ 255 then .ok () else .error (.immediate w.toNat immediateBits) := by
  simp only [check, fitsUnsigned_immediateBits_iff]

theorem Instruction.check_transfer (access : Access) (value base : Register) (offset : Int)
    (writeback : Bool) :
    (transfer access value base offset writeback).check
      = if offset.natAbs ≤ 255 then .ok () else .error (.immediate offset immediateBits) := by
  simp only [check, fitsUnsigned_immediateBits_iff]

namespace ImmediateUse

/-- An instruction is in range exactly if the immediate is accepted. -/
def Guards (use : ImmediateUse) (v : Int) (i : SymbolicInstruction) : Prop :=
  (use.Accepts v → i.unlabelled.check = .ok ()) ∧
  (¬ use.Accepts v → i.unlabelled.check = .error (.immediate (use.reported v) immediateBits))

/-- One instruction of an expansion guards the immediate, and all others are in range anyway. -/
structure Expanded (use : ImmediateUse) (v : Int) (is : List SymbolicInstruction) : Prop where
  guarded : ∃ front i back, is = front ++ i :: back ∧ i.IsPlain ∧ use.Guards v i ∧
    ∀ j ∈ front ++ back, j.IsPlain ∧ j.unlabelled.check = .ok ()
  length_le : is.length ≤ 3
  carries : use.Accepts v → use.Carries v (is.map Instruction.unlabelled)

/-- The expansion of a source instruction with an immediate. -/
inductive Expansion (use : ImmediateUse) (v : Int) :
    Except Cause (List SymbolicInstruction) → Prop
  | refused (h : ¬ use.Accepts v) :
      Expansion use v (.error (.encoding (.immediate (use.reported v) immediateBits)))
  | expanded {is : List SymbolicInstruction} (h : use.Expanded v is) : Expansion use v (.ok is)

end ImmediateUse

section
variable {use : ImmediateUse} {v : Int}

theorem guards_alu {op : AluOp} {rd rn : Register} {w : Word}
    (haccepts : use.Accepts v ↔ w.toNat ≤ 255)
    (hreported : 255 < w.toNat → (w.toNat : Int) = use.reported v) :
    use.Guards v (.alu op rd rn (.immediate w)) := by
  show (_ → (Instruction.alu op rd rn (.immediate w)).check = _) ∧
    (_ → (Instruction.alu op rd rn (.immediate w)).check = _)
  rw [Instruction.check_alu_immediate, haccepts]
  refine ⟨fun h => if_pos h, fun h => ?_⟩
  rw [if_neg h, hreported (Nat.lt_of_not_le h)]

theorem isPlain_alu_immediate (op : AluOp) (rd rn : Register) (w : Word) :
    (Instruction.alu op rd rn (.immediate w) : SymbolicInstruction).IsPlain :=
  ⟨rfl, fun h => by cases h⟩

theorem adds_alu {op : AluOp} {rd rn : Register} {w : Word}
    (h : (op = .add ∧ (w.toNat : Int) = v) ∨ (op = .sub ∧ (w.toNat : Int) = -v)) :
    Instruction.Adds rd rn v (.alu op rd rn (.immediate w)) := by
  rcases h with ⟨rfl, hw⟩ | ⟨rfl, hw⟩
  · refine ⟨.add, w, .inl rfl, rfl, fun x => ?_⟩
    rw [AluOp.apply, hw]
  · refine ⟨.sub, w, .inr rfl, rfl, fun x => ?_⟩
    rw [AluOp.apply, hw]
    omega

theorem isPlain_alu_register {op : AluOp} (hop : op ≠ .mov) (rd rn rm : Register) :
    (Instruction.alu op rd rn (.register rm) : SymbolicInstruction).IsPlain :=
  ⟨rfl, fun h => hop (by cases h; rfl)⟩

theorem immediateSource_cases (v : Int) :
    (∃ w : Word, (w.toNat : Int) = v ∧ immediateSource v = .ok (.immediate w)) ∨
    ((v < 0 ∨ 2 ^ 32 ≤ v) ∧
      immediateSource v = .error (.encoding (.immediate v immediateBits))) := by
  rw [immediateSource]
  cases h : Word.ofInt? v with
  | some w => exact .inl ⟨w, (Word.ofInt?_eq_some_iff.1 h).symm, rfl⟩
  | none =>
    refine .inr ⟨?_, rfl⟩
    by_contra hrange
    have hword : v = (UInt32.ofNat v.toNat).toNat := by
      rw [UInt32.toNat_ofNat_of_lt' (by show v.toNat < 2 ^ 32; omega)]
      omega
    rw [Word.ofInt?_eq_some_iff.2 hword] at h
    cases h

theorem expansion_of_eq_reported {n : Int} (h : ¬ use.Accepts v) (hn : n = use.reported v) :
    use.Expansion v (.error (.encoding (.immediate n immediateBits))) := by
  rw [hn]
  exact .refused h

/-- An expansion that starts by moving the immediate to a register. -/
theorem expansion_moveTo {r : Register} {rest : List SymbolicInstruction}
    (haccepts : use.Accepts v ↔ 0 ≤ v ∧ v ≤ 255) (hreported : use.reported v = v)
    (hrest : ∀ j ∈ rest, j.IsPlain ∧ j.unlabelled.check = .ok ()) (hlength : rest.length ≤ 2)
    (hcarries : ∀ w : Word, (w.toNat : Int) = v →
      use.Carries v (.alu .mov r .zero (.immediate w) :: rest.map Instruction.unlabelled)) :
    use.Expansion v ((immediateSource v).map fun source => moveTo r source :: rest) := by
  rcases immediateSource_cases v with ⟨w, hw, hsource⟩ | ⟨hrange, hsource⟩
  · rw [hsource]
    refine .expanded ⟨⟨[], _, rest, rfl, isPlain_alu_immediate .mov r .zero w, ?_, hrest⟩,
      Nat.succ_le_succ hlength, fun _ => hcarries w hw⟩
    exact guards_alu (by rw [haccepts]; omega) fun _ => by rw [hw, hreported]
  · rw [hsource]
    refine expansion_of_eq_reported (fun h => ?_) hreported.symm
    have hv := haccepts.1 h
    omega

/-- Adds, or subtracts. -/
def sumOp (minus : Bool) : AluOp :=
  if minus then .sub else .add

/-- The expansion of an addition or a subtraction, which takes the magnitude of the immediate and
turns into its opposite for a negative one. -/
theorem expansion_sum (minus : Bool) (rd rn : Register) (hv : fitsSigned 64 v = true) :
    (ImmediateUse.sum minus rd rn).Expansion v
      (sum (sumOp minus) (sumOp !minus) rd rn (.immediate v)) := by
  rw [fitsSigned_iff] at hv
  have hsum : sum (sumOp minus) (sumOp !minus) rd rn (.immediate v)
      = (immediateSource (min (v.natAbs : Int) (2 ^ 63 - 1))).map fun source =>
          [.alu (if v < 0 then sumOp !minus else sumOp minus) rd rn source] := by
    by_cases hneg : v < 0
    · have hmin : negated v = min (v.natAbs : Int) (2 ^ 63 - 1) := by
        show min (-v) (2 ^ 63 - 1) = _
        omega
      simp only [sum, if_pos hneg, hmin]
    · have hmin : min (v.natAbs : Int) (2 ^ 63 - 1) = v := by omega
      simp only [sum, if_neg hneg, hmin]
  rw [hsum]
  rcases immediateSource_cases (min (v.natAbs : Int) (2 ^ 63 - 1)) with
    ⟨w, hw, hsource⟩ | ⟨hrange, hsource⟩
  · rw [hsource]
    refine .expanded ⟨⟨[], _, [], rfl, isPlain_alu_immediate _ rd rn w, ?_, by simp⟩, by simp, ?_⟩
    · refine guards_alu ?_ fun _ => hw
      show v.natAbs ≤ 255 ↔ _
      omega
    · intro haccepts
      have hmagnitude : (w.toNat : Int) = v.natAbs := by
        have hle : v.natAbs ≤ 255 := haccepts
        omega
      refine ⟨_, rfl, adds_alu ?_⟩
      cases minus <;> by_cases hneg : v < 0 <;> simp [hneg, sumOp] <;> omega
  · rw [hsource]
    refine expansion_of_eq_reported (fun haccepts => ?_) rfl
    have hle : v.natAbs ≤ 255 := haccepts
    omega

/-- The word by which a base is moved. -/
theorem toNat_getD_ofNat? (n : Nat) :
    (((Word.ofNat? n).getD 0xFFFFFFFF).toNat : Int) = min (n : Int) (2 ^ 32 - 1) := by
  rw [Word.ofNat?]
  split
  · next h =>
    have hlt : n < 2 ^ 32 := h
    rw [Option.getD_some, UInt32.toNat_ofNat_of_lt' h]
    omega
  · next h =>
    have hle : ¬ n < 2 ^ 32 := h
    show (2 ^ 32 - 1 : Int) = _
    omega

theorem guards_moveBy (haccepts : use.Accepts v ↔ v.natAbs ≤ 255)
    (hreported : use.reported v = min (v.natAbs : Int) (2 ^ 32 - 1)) (base : Register) :
    use.Guards v (moveBy base v) := by
  have hword := toNat_getD_ofNat? v.natAbs
  refine guards_alu ?_ fun _ => by rw [hword, hreported]
  rw [haccepts]
  omega

theorem adds_moveBy (hv : v.natAbs ≤ 255) (base : Register) :
    (moveBy base v).unlabelled.Adds base base v := by
  have hword := toNat_getD_ofNat? v.natAbs
  refine adds_alu ?_
  by_cases hneg : v < 0
  · exact .inr ⟨if_pos hneg, by omega⟩
  · exact .inl ⟨if_neg hneg, by omega⟩

theorem isPlain_transfer (access : Access) (value base : Register) (offset : Int)
    (writeback : Bool) :
    (Instruction.transfer access value base offset writeback : SymbolicInstruction).IsPlain :=
  ⟨rfl, fun h => by cases h⟩

section
variable (access : Access) (value base : Register)

theorem expansion_offset :
    (ImmediateUse.offset access value base).Expansion v
      (.ok [.transfer access value base v false]) := by
  refine .expanded ⟨⟨[], _, [], rfl, isPlain_transfer access value base v false, ?_, by simp⟩,
    by simp, fun _ => rfl⟩
  have hcheck := Instruction.check_transfer access value base v false
  exact ⟨fun h => hcheck.trans (if_pos h), fun h => hcheck.trans (if_neg h)⟩

theorem expansion_before :
    (ImmediateUse.before access value base).Expansion v
      (.ok [moveBy base v, .transfer access value base 0 true]) := by
  refine .expanded ⟨⟨[], _, _, rfl, isPlain_alu_immediate _ base base _, ?_, ?_⟩, by simp, ?_⟩
  · exact guards_moveBy Iff.rfl rfl base
  · exact List.forall_mem_singleton.2 ⟨isPlain_transfer access value base 0 true, rfl⟩
  · exact fun h => ⟨_, rfl, adds_moveBy h base⟩

theorem expansion_after :
    (ImmediateUse.after access value base).Expansion v
      (.ok [.transfer access value base 0 true, moveBy base v]) := by
  refine .expanded ⟨⟨[_], _, [], rfl, isPlain_alu_immediate _ base base _, ?_, ?_⟩, by simp, ?_⟩
  · exact guards_moveBy Iff.rfl rfl base
  · exact List.forall_mem_singleton.2 ⟨isPlain_transfer access value base 0 true, rfl⟩
  · exact fun h => ⟨_, rfl, adds_moveBy h base⟩

end

end

theorem expand_sumOperation (t : SymbolTable) (minus : Bool) (rd rn : Register)
    (operands : List Operand) :
    expand t (ImmediateUse.sum minus rd rn).operation operands
      = expandSum (sumOp minus) (sumOp !minus) operands := by
  cases minus <;> rfl

theorem expand_accessOperation (t : SymbolTable) (access : Access) (operands : List Operand) :
    expand t access.operation operands = expandTransfer t access operands := by
  cases access <;> rfl

/-- The immediate stands in the last operand, and decides what the instruction expands to. -/
theorem exists_expansion_of_written {use : ImmediateUse} {s : List Char} {texts : List (List Char)}
    (h : use.Written s texts) :
    ∃ front last os, ∃ f : Int → Operand, texts = front ++ [last] ∧
      List.Forall₂ (fun text o => readOperand text = .ok o) front os ∧
      readOperand last = (readImmediate s).map f ∧
      ∀ v, fitsSigned 64 v = true → ∃ r, use.Expansion v r ∧
        ∀ t, expand t use.operation (os ++ [f v]) = r := by
  cases h with
  | @sum a b rd rn minus ha hb =>
    refine ⟨[a, b], '#' :: s, _, .immediate, rfl, .cons ha (.cons hb .nil), rfl, fun v hv => ?_⟩
    exact ⟨_, expansion_sum minus rd rn hv, fun t => expand_sumOperation t minus rd rn _⟩
  | @sumInPlace a rd minus ha =>
    refine ⟨[a], '#' :: s, _, .immediate, rfl, .cons ha .nil, rfl, fun v hv => ?_⟩
    exact ⟨_, expansion_sum minus rd rd hv, fun t => expand_sumOperation t minus rd rd _⟩
  | @move a rd ha =>
    refine ⟨[a], '#' :: s, _, .immediate, rfl, .cons ha .nil, rfl, fun v _ => ?_⟩
    refine ⟨_, expansion_moveTo Iff.rfl rfl (by simp) (by simp) fun w hw => ?_, fun _ => rfl⟩
    exact ⟨_, rfl, w, rfl, hw⟩
  | @shift a b rd rn ha hb =>
    refine ⟨[a, b], '#' :: s, _, .immediate, rfl, .cons ha (.cons hb .nil), rfl, fun v _ => ?_⟩
    refine ⟨_, expansion_moveTo Iff.rfl rfl ?_ (by simp) fun w hw => ?_, fun _ => rfl⟩
    · exact List.forall_mem_singleton.2 ⟨isPlain_alu_register (by decide) rd rn .scratch, rfl⟩
    · exact ⟨_, rfl, w, rfl, hw⟩
  | @compare a r ha =>
    refine ⟨[a], '#' :: s, _, .immediate, rfl, .cons ha .nil, rfl, fun v _ => ?_⟩
    refine ⟨_, expansion_moveTo Iff.rfl rfl ?_ ?_ fun w hw => ?_, fun _ => rfl⟩
    · exact List.forall_mem_cons.2 ⟨⟨isPlain_alu_register (by decide) _ _ _, rfl⟩,
        List.forall_mem_singleton.2 ⟨isPlain_alu_register (by decide) _ _ _, rfl⟩⟩
    · exact Nat.le_refl 2
    · exact ⟨_, rfl, w, rfl, hw⟩
  | @offset a b gap value base access ha hb hgap hs =>
    exact ⟨[a], _, _, _, rfl, .cons ha .nil, readOperand_offsetText hb hgap hs, fun v _ =>
      ⟨_, expansion_offset access value base, fun t => expand_accessOperation t access _⟩⟩
  | @before a b gap tail value base access ha hb hgap htail hs =>
    exact ⟨[a], _, _, _, rfl, .cons ha .nil, readOperand_offsetText_marked hb hgap htail hs,
      fun v _ =>
        ⟨_, expansion_before access value base, fun t => expand_accessOperation t access _⟩⟩
  | @after a b value base access ha hb =>
    refine ⟨[a, b], '#' :: s, _, .immediate, rfl, .cons ha (.cons hb .nil), rfl, fun v _ => ?_⟩
    exact ⟨_, expansion_after access value base, fun t => expand_accessOperation t access _⟩

/-! ## Assembling -/

namespace ImmediateUse

variable {use : ImmediateUse} {v : Int} {is : List SymbolicInstruction} {i : SymbolicInstruction}

theorem Expanded.mem_cases (h : use.Expanded v is) (hi : i ∈ is) :
    i.IsPlain ∧ (use.Guards v i ∨ i.unlabelled.check = .ok ()) := by
  obtain ⟨front, j, back, rfl, hplain, hguards, hrest⟩ := h.guarded
  rcases List.mem_append.1 hi with hi | hi
  · obtain ⟨hplain, hcheck⟩ := hrest i (List.mem_append_left _ hi)
    exact ⟨hplain, .inr hcheck⟩
  · rcases List.mem_cons.1 hi with rfl | hi
    · exact ⟨hplain, .inl hguards⟩
    · obtain ⟨hplain, hcheck⟩ := hrest i (List.mem_append_right _ hi)
      exact ⟨hplain, .inr hcheck⟩

/-- An expansion has an operand out of range only if its immediate is not accepted. -/
theorem Expanded.of_encode_eq_error (h : use.Expanded v is) (hi : i ∈ is) {c : EncodeError}
    (hc : i.unlabelled.encode = .error c) :
    ¬ use.Accepts v ∧ c = .immediate (use.reported v) immediateBits := by
  rw [Instruction.encode_eq_error_iff] at hc
  rcases (h.mem_cases hi).2 with hguards | hcheck
  · have hrefused : ¬ use.Accepts v := by
      intro haccepts
      rw [hguards.1 haccepts] at hc
      cases hc
    rw [hguards.2 hrefused] at hc
    exact ⟨hrefused, (Except.error.inj hc).symm⟩
  · rw [hcheck] at hc
    cases hc

/-- An expansion has all operands in range only if its immediate is accepted. -/
theorem Expanded.accepts_of_inRange (h : use.Expanded v is)
    (hrange : ∀ i ∈ is, i.unlabelled.InRange) : use.Accepts v := by
  obtain ⟨front, i, back, rfl, -, hguards, -⟩ := h.guarded
  by_contra hrefused
  have hcheck := Instruction.check_eq_ok_iff.2 (hrange i (by simp))
  rw [hguards.2 hrefused] at hcheck
  cases hcheck

theorem operation_category (use : ImmediateUse) :
    use.operation ≠ .word ∧ use.operation.category ≠ .conditionalBranch := by
  rcases use with ⟨_ | _, _, _⟩ | _ | _ | _ | ⟨_ | _, _, _⟩ | ⟨_ | _, _, _⟩ | ⟨_ | _, _, _⟩ <;>
    simp [operation, Access.operation, Operation.category]

theorem Accepts.fitsSigned (h : use.Accepts v) : fitsSigned 64 v = true := by
  have hrange : v.natAbs ≤ 255 := by
    cases use with
    | move | shift | compare =>
      have hbounds : 0 ≤ v ∧ v ≤ 255 := h
      omega
    | _ => exact h
  rw [fitsSigned_iff]
  omega

end ImmediateUse

theorem wordCount_le (config : Config) (is : List SymbolicInstruction) :
    wordCount config is ≤ is.length * (config.hazardPad.toNat + 1) := by
  induction is with
  | nil => exact Nat.zero_le _
  | cons i is ih =>
    have hspan : span config i ≤ config.hazardPad.toNat + 1 := by
      rw [span, padding]
      split <;> omega
    rw [wordCount_cons, List.length_cons, Nat.succ_mul]
    omega

theorem length_startInstructions_le (config : Config) : (startInstructions config).length ≤ 3 := by
  rw [startInstructions]
  split
  · exact Nat.le_refl 3
  · exact Nat.zero_le 3

/-- There is room for six instructions and their no-ops. -/
def HasRoom (config : Config) : Prop :=
  config.textStart.toNat + 6 * (config.hazardPad.toNat + 1) < UInt32.size

theorem room_of_hasRoom {config : Config} {is : List SymbolicInstruction} (hlength : is.length ≤ 3)
    (h : HasRoom config) :
    config.textStart.toNat + wordCount config (startInstructions config ++ is) < UInt32.size := by
  have hcount := wordCount_le config (startInstructions config ++ is)
  have hstart := length_startInstructions_le config
  have hle : (startInstructions config ++ is).length * (config.hazardPad.toNat + 1)
      ≤ 6 * (config.hazardPad.toNat + 1) :=
    Nat.mul_le_mul_right _ (by rw [List.length_append]; omega)
  rw [HasRoom] at h
  omega

/-- The assembler does not run out of addresses. -/
def FitsMemory (config : Config) (lines : List SourceLine) : Prop :=
  ∀ e, assemble config lines = .error e → e.isAddressSpace = false

/-- Words decode to instructions that carry an immediate, with no-ops behind them. -/
def ImmediateUse.KeptBy (use : ImmediateUse) (v : Int) (words : List Word) : Prop :=
  ∃ ds js, use.Carries v ds ∧ WithNops ds js ∧ words.map decode = js.map some

/-- What becomes of a line whose immediate is the number `v`, written `s`. -/
structure ImmediateOutcome (config : Config) (line : SourceLine) (use : ImmediateUse)
    (s : List Char) (v : Int) : Prop where
  /-- A number that is no 64-bit number is no immediate. -/
  wide : fitsSigned 64 v = false → assemble config [line]
    = .error (.onLine line (.operand (.badNumber (String.ofList (trim s)))))
  assembled_iff : FitsMemory config [line] →
    ((∃ p, assemble config [line] = .ok p) ↔ use.Accepts v)
  kept : ∀ p, assemble config [line] = .ok p → use.KeptBy v (bodyWords config p)
  refused : FitsMemory config [line] → fitsSigned 64 v = true → ¬ use.Accepts v →
    assemble config [line]
      = .error (.onLine line (.encoding (.immediate (use.reported v) immediateBits)))
  fitsMemory : HasRoom config → FitsMemory config [line]
  /-- The same number is kept wherever the line stands. -/
  keptAnywhere : ∀ front back p, assemble config (front ++ line :: back) = .ok p →
    use.Accepts v ∧ ∃ fs words, SourceStatement.readAll front = .ok fs ∧ use.KeptBy v words ∧
      words <+: (p.instructions.toList.map Prod.snd).drop (position config p.symbols fs)

section
variable {config : Config} {line : SourceLine} {m : Mnemonic} {operands : List Operand}
  {use : ImmediateUse} {v : Int} {is : List SymbolicInstruction}
  {r : Except Cause (List SymbolicInstruction)}

/-- The words of an expansion are only there if the immediate is accepted, and then carry it. -/
theorem ImmediateUse.Expanded.keptBy (h : use.Expanded v is) {t : SymbolTable} {pc : Address}
    {words : List Word} (hwords : directWords? config t pc is = some words) :
    use.Accepts v ∧ use.KeptBy v words := by
  have hbranch : ∀ i ∈ is, i.isBranch = false := fun i hi => (h.mem_cases hi).1.1
  have hidle : ∀ i ∈ is, i.unlabelled ≠ .idleMove := fun i hi => (h.mem_cases hi).1.2
  have haccepts := h.accepts_of_inRange (inRange_of_directWords? hbranch hwords)
  obtain ⟨js, hnops, hdecode⟩ := exists_withNops_of_directWords? hbranch hidle hwords
  exact ⟨haccepts, _, js, h.carries haccepts, hnops, hdecode⟩

/-- A line with an immediate, assembled by itself: there is no room for its words, or it is
assembled or refused as it should be. -/
theorem assemble_of_expansion (hvalid : config.validate = .ok ())
    (hread : Statement.read line = .ok (.instruction m operands))
    (hoperation : m.operation = use.operation)
    (hexpand : ∀ t, expand t m.operation operands = r) (hr : use.Expansion v r) :
    (¬ HasRoom config ∧ ∃ e, assemble config [line] = .error e ∧ e.isAddressSpace = true) ∨
    (use.Accepts v ∧ ∃ p, assemble config [line] = .ok p ∧ use.KeptBy v (bodyWords config p)) ∨
    (¬ use.Accepts v ∧ assemble config [line]
      = .error (.onLine line (.encoding (.immediate (use.reported v) immediateBits)))) := by
  have hcategory : m.operation.category ≠ .conditionalBranch := by
    rw [hoperation]
    exact use.operation_category.2
  cases hr with
  | refused hrefused =>
    rcases assemble_of_expand_eq_error hvalid hread hcategory hexpand with
      ⟨e, he, hspace, hroom⟩ | he
    · refine .inl ⟨fun h => hroom ?_, e, he, hspace⟩
      rw [← List.append_nil (startInstructions config)]
      exact room_of_hasRoom (Nat.zero_le 3) h
    · exact .inr (.inr ⟨hrefused, he⟩)
  | expanded hexpanded =>
    cases h : assemble config [line] with
    | error e =>
      rcases cause_of_assemble_eq_error hvalid hread hcategory hexpand
        (fun i hi => (hexpanded.mem_cases hi).1.1) h with ⟨hspace, hroom⟩ | ⟨i, hi, c, hc, rfl⟩
      · exact .inl ⟨fun h => hroom (room_of_hasRoom hexpanded.length_le h), e, rfl, hspace⟩
      · obtain ⟨hrefused, rfl⟩ := hexpanded.of_encode_eq_error hi hc
        exact .inr (.inr ⟨hrefused, rfl⟩)
    | ok p =>
      obtain ⟨pc, hwords⟩ := exists_directWords?_of_assemble hread hexpand h
      obtain ⟨haccepts, hkept⟩ := hexpanded.keptBy hwords
      exact .inr (.inl ⟨haccepts, p, rfl, hkept⟩)

/-- A line with an immediate in a source text that is assembled. -/
theorem keptBy_of_expansion (hread : Statement.read line = .ok (.instruction m operands))
    (hexpand : ∀ t, expand t m.operation operands = r) (hr : use.Expansion v r)
    (front back : List SourceLine) (p : Program)
    (h : assemble config (front ++ line :: back) = .ok p) :
    use.Accepts v ∧ ∃ fs words, SourceStatement.readAll front = .ok fs ∧ use.KeptBy v words ∧
      words <+: (p.instructions.toList.map Prod.snd).drop (position config p.symbols fs) := by
  obtain ⟨fs, x, bs, hfs, hx, hassembled⟩ := exists_statement_of_assemble h
  obtain rfl := Except.ok.inj (hread.symm.trans hx)
  obtain ⟨is, his⟩ := hassembled.expands ⟨line, .instruction m operands⟩ (by simp) m operands rfl
  obtain ⟨words, hwords, hstands⟩ := hassembled.prefix_drop rfl
  rw [instructions_of_expand_eq_ok _ his] at hwords
  rw [← hexpand p.symbols, his] at hr
  cases hr with
  | expanded hexpanded =>
    obtain ⟨haccepts, hkept⟩ := hexpanded.keptBy hwords
    exact ⟨haccepts, fs, words, hfs, hkept, hstands⟩

variable {s : List Char}

/-- A line that cannot be read for its immediate is refused wherever it stands. -/
theorem immediateOutcome_of_read_eq_error (hvalid : config.validate = .ok ())
    (hwide : fitsSigned 64 v = false)
    (hread : Statement.read line
      = .error (.onLine line (.operand (.badNumber (String.ofList (trim s)))))) :
    ImmediateOutcome config line use s v := by
  have he := assemble_of_read_eq_error hvalid hread
  have hrefused : ¬ use.Accepts v := by
    intro haccepts
    rw [haccepts.fitsSigned] at hwide
    cases hwide
  exact
    { wide := fun _ => he
      assembled_iff := fun _ => iff_of_false (by simp [he]) hrefused
      kept := by simp [he]
      refused := by simp [hwide]
      fitsMemory := fun _ e h => by
        obtain rfl := Except.error.inj (he.symm.trans h)
        rfl
      keptAnywhere := fun front back p h => by
        obtain ⟨_, x, _, -, hx, -⟩ := exists_statement_of_assemble h
        rw [hread] at hx
        cases hx }

/-- A line that is read with its immediate has the outcome of its expansion. -/
theorem immediateOutcome_of_expansion (hvalid : config.validate = .ok ())
    (hfits : fitsSigned 64 v = true)
    (hread : Statement.read line = .ok (.instruction m operands))
    (hoperation : m.operation = use.operation)
    (hexpand : ∀ t, expand t m.operation operands = r) (hr : use.Expansion v r) :
    ImmediateOutcome config line use s v := by
  have hwide {q : Prop} (h : fitsSigned 64 v = false) : q := by
    rw [hfits] at h
    cases h
  have hanywhere (front back : List SourceLine) (p : Program)
      (h : assemble config (front ++ line :: back) = .ok p) :=
    keptBy_of_expansion hread hexpand hr front back p h
  rcases assemble_of_expansion hvalid hread hoperation hexpand hr with
    ⟨hroom, e, he, hspace⟩ | ⟨haccepts, p, hp, hkept⟩ | ⟨hrefused, he⟩
  · have hfull : ¬ FitsMemory config [line] := by
      intro hmemory
      rw [hmemory e he] at hspace
      cases hspace
    exact ⟨hwide, fun h => absurd h hfull, by simp [he], fun h => absurd h hfull,
      fun h => absurd h hroom, hanywhere⟩
  · refine ⟨hwide, fun _ => iff_of_true ⟨p, hp⟩ haccepts, fun q hq => ?_,
      fun _ _ hrefused => absurd haccepts hrefused, fun _ e he => by simp [hp] at he, hanywhere⟩
    obtain rfl := Except.ok.inj (hp.symm.trans hq)
    exact hkept
  · refine ⟨hwide, fun _ => iff_of_false (by simp [he]) hrefused, by simp [he], fun _ _ _ => he,
      fun _ e h => ?_, hanywhere⟩
    obtain rfl := Except.error.inj (he.symm.trans h)
    rfl

end

/-- **An immediate is kept or refused, and never changed.**  A line that is well formed apart from
its immediate is assembled exactly if the immediate is in range for its use, and then its words
carry that very number, also in a longer source text.  Every other 64-bit number is reported not to
fit eight bits, and a larger number not to be one. -/
theorem immediate_kept_or_refused {config : Config} {line : SourceLine} {m : Mnemonic}
    {texts : List (List Char)} {use : ImmediateUse} {s : List Char} {v : Int}
    (hvalid : config.validate = .ok ()) (hparts : line.HasParts m texts)
    (hoperation : m.operation = use.operation) (hwritten : use.Written s texts)
    (hv : literalValue? (trim s) = some v) : ImmediateOutcome config line use s v := by
  obtain ⟨front, last, os, f, rfl, hfront, hlast, hexpansion⟩ :=
    exists_expansion_of_written hwritten
  have hword : m.operation ≠ .word := by
    rw [hoperation]
    exact use.operation_category.1
  rw [readImmediate_of_literalValue? hv] at hlast
  cases hfits : fitsSigned 64 v with
  | false =>
    -- The immediate stands last, so it is the first operand that cannot be read.
    have hmapM : (front ++ [last]).mapM readOperand
        = .error (.badNumber (String.ofList (trim s))) := by
      rw [hfits] at hlast
      rw [List.mapM_append, mapM_eq_ok_iff.2 hfront, List.mapM_cons, hlast]
      rfl
    exact immediateOutcome_of_read_eq_error hvalid hfits (hparts.read_eq_error hword hmapM)
  | true =>
    rw [hfits] at hlast
    have hread := hparts.read_eq_ok hword (List.rel_append hfront (.cons hlast .nil))
    obtain ⟨r, hr, hexpand⟩ := hexpansion v hfits
    rw [← hoperation] at hexpand
    exact immediateOutcome_of_expansion hvalid hfits hread hoperation hexpand hr

/-- The smallest offset in front of a load, the smallest 64-bit number in a subtraction, and the
smallest number above all 64-bit numbers in a compare. -/
theorem immediate_kept_of_smallest :
    (∃ p, assemble loopConfig [⟨0, "ldr lr, [sp, # -0xFF ] !"⟩] = .ok p ∧
      (ImmediateUse.before .load .lr .sp).KeptBy (-255) (bodyWords loopConfig p)) ∧
    assemble loopConfig [⟨0, "sub fp, #-9223372036854775808"⟩]
      = .error (.onLine ⟨0, "sub fp, #-9223372036854775808"⟩
          (.encoding (.immediate 9223372036854775807 8))) ∧
    assemble loopConfig [⟨0, "cmp fp, # $9223372036854775808"⟩]
      = .error (.onLine ⟨0, "cmp fp, # $9223372036854775808"⟩
          (.operand (.badNumber "$9223372036854775808"))) := by
  have hlr : readOperand "lr".toList = .ok (.register .lr) :=
    toOption_eq_some_iff.1 (by decide +kernel)
  have hfp : readOperand "fp".toList = .ok (.register .fp) :=
    toOption_eq_some_iff.1 (by decide +kernel)
  have hsp : readRegister "sp".toList = .ok .sp := toOption_eq_some_iff.1 (by decide +kernel)
  have hvalid : loopConfig.validate = .ok () := rfl
  have hroom : HasRoom loopConfig := by
    rw [HasRoom]
    decide
  have hload : SourceLine.HasParts ⟨0, "ldr lr, [sp, # -0xFF ] !"⟩ ⟨"ldr", .ldr⟩
      ["lr".toList, offsetText "sp".toList [' '] " -0xFF ".toList ++ ([' '] ++ ['!'])] :=
    ⟨by decide +kernel, by decide +kernel, toOption_eq_some_iff.1 (by decide +kernel)⟩
  have hsub : SourceLine.HasParts ⟨0, "sub fp, #-9223372036854775808"⟩ ⟨"sub", .sub⟩
      ["fp".toList, '#' :: "-9223372036854775808".toList] :=
    ⟨by decide +kernel, by decide +kernel, toOption_eq_some_iff.1 (by decide +kernel)⟩
  have hcmp : SourceLine.HasParts ⟨0, "cmp fp, # $9223372036854775808"⟩ ⟨"cmp", .cmp⟩
      ["fp".toList, '#' :: " $9223372036854775808".toList] :=
    ⟨by decide +kernel, by decide +kernel, toOption_eq_some_iff.1 (by decide +kernel)⟩
  have kept := immediate_kept_or_refused (v := -255) hvalid hload rfl
    (.before .load hlr hsp (List.all_eq_true.1 rfl) (List.all_eq_true.1 rfl) (by decide))
    (by decide +kernel)
  have refused := immediate_kept_or_refused (v := -9223372036854775808) hvalid hsub rfl
    (.sumInPlace true hfp) (by decide +kernel)
  have wide := immediate_kept_or_refused (v := 9223372036854775808) hvalid hcmp rfl
    (.compare hfp) (by decide +kernel)
  obtain ⟨p, hp⟩ := (kept.assembled_iff (kept.fitsMemory hroom)).2 (by decide)
  exact ⟨⟨p, hp, kept.kept p hp⟩, refused.refused (refused.fitsMemory hroom) rfl (by decide),
    wide.wide rfl⟩

end FlaglessAsm
