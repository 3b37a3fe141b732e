import FlaglessAsm.Instruction.Disassembly
import FlaglessAsm.Proofs.CanonicalWords
import FlaglessAsm.Proofs.DeferredBranches
import FlaglessAsm.Proofs.OperandText
import FlaglessAsm.Proofs.WellFormed

/-!
# Disassembled text assembled again

The text that a listing shows for a word is, for most instructions, a line of source text, and
assembling that line gives the word back.  Immediates are shown in hexadecimal and offsets in
decimal, an offset of zero is left out, and a move shows only one source; source text is read in all
of these forms.

## What is here

* `Instruction.IsSource`: the instructions whose text is source text.
* `Instruction.shownRegisters`: the registers in the text of an instruction.
* `ReadsBack`, `exists_readsBack`: what the text of an instruction is read as.
* `exists_assemble_singleton`: assembling a single line.
* `same_word_of_shown`: assembling the text of a word gives the word.
-/

set_option autoImplicit false

namespace FlaglessAsm

open Text

/-! ## Instructions whose text is source text -/

/-- The registers of a second operand. -/
def Source.registers : Source → List Register
  | .immediate _ => []
  | .register r => [r]

namespace Instruction

/-- The registers in the text of an instruction. -/
def shownRegisters : Instruction Int → List Register
  | .nop => []
  | .alu op rd rn source => rd :: (if op = .mov then [] else [rn]) ++ source.registers
  | .transfer _ value base _ _ => [value, base]
  | .branch .always _ => []
  | .branch (.ifZero r) _ | .branch (.ifNonZero r) _ => [r]
  | .exchange rm => [rm]

/-- The instructions whose text is a line of source text that stands for them. -/
inductive IsSource : Instruction Int → Prop
  | nop : IsSource .nop
  | exchange (rm : Register) : IsSource (.exchange rm)
  | transfer (access : Access) (value base : Register) (offset : Int) :
      IsSource (.transfer access value base offset false)
  | add (rd rn : Register) (source : Source) : IsSource (.alu .add rd rn source)
  | sub (rd rn : Register) (source : Source) : IsSource (.alu .sub rd rn source)
  | shift (rd rn rm : Register) : IsSource (.alu .lsl rd rn (.register rm))
  | move (rd : Register) (source : Source) : IsSource (.alu .mov rd .zero source)

end Instruction

/-! ## Operands of instructions -/

/-- A second operand as an operand of source text. -/
def Source.operand : Source → Operand
  | .immediate v => .immediate v.toNat
  | .register r => .register r

theorem spells_renderSource {source : Source} (h : ∀ r ∈ source.registers, r.IsNameable) :
    Spells (Instruction.renderSource source).toList source.operand := by
  cases source with
  | immediate v =>
    have hlt : v.toNat < 2 ^ 32 := v.toNat_lt_size
    have htoken : IsToken (hex v.toNat).toList := by
      rw [toList_hex]
      exact ((isToken_toDigits (by decide) (by decide) _).cons (by decide)).cons (by decide)
    have hliteral : literal? (hex v.toNat).toList = some (v.toNat : Int) := by
      rw [toList_hex, literal?_hex (by omega)]
    rw [Instruction.renderSource, String.toList_append]
    exact spells_immediate htoken hliteral (fitsSigned_iff.2 ⟨by omega, by omega⟩)
  | register r => exact spells_register (h r (List.mem_singleton_self r))

theorem immediateSource_toNat (v : Word) : immediateSource v.toNat = .ok (.immediate v) := by
  rw [immediateSource, Word.ofInt?_eq_some_iff.2 rfl]

theorem sourceOf_operand (source : Source) : sourceOf source.operand = .ok source := by
  cases source with
  | immediate v => exact immediateSource_toNat v
  | register => rfl

theorem sum_operand (op opposite : AluOp) (rd rn : Register) (source : Source) :
    sum op opposite rd rn source.operand = .ok [.alu op rd rn source] := by
  cases source with
  | immediate v =>
    have hpos : ¬ (v.toNat : Int) < 0 := by omega
    simp only [Source.operand, sum, if_neg hpos, immediateSource_toNat]
    rfl
  | register => rfl

/-- An offset as far as it is shown. -/
def shownOffset (offset : Int) : Option Int :=
  if offset = 0 then none else some offset

theorem getD_shownOffset (offset : Int) : (shownOffset offset).getD 0 = offset := by
  by_cases h : offset = 0
  · rw [shownOffset, if_pos h, h]
    rfl
  · rw [shownOffset, if_neg h]
    rfl

theorem toList_renderMemory (base : Register) (offset : Int) (writeback : Bool) :
    (Instruction.renderMemory base offset writeback).toList
      = Operand.render (.memory base (shownOffset offset) writeback) := by
  by_cases h : offset = 0
  · cases writeback <;> simp [Instruction.renderMemory, Operand.render, shownOffset, h,
      renderRegister, commaSeparated]
  · cases writeback <;> simp [Instruction.renderMemory, Operand.render, shownOffset, h,
      renderRegister, renderImmediate, commaSeparated, List.intercalate_cons_cons]

/-! ## What the text of an instruction is read as -/

/-- The text of `d` is read as a statement that stands for `d` alone, whatever the labels are. -/
structure ReadsBack (d : Instruction Int) (m : Mnemonic) (operands : List Operand)
    (i : SymbolicInstruction) : Prop where
  tight : Tight d.render.toList
  readText_eq : Statement.readText d.render.toList = .ok (.instruction m operands)
  category_ne : m.operation.category ≠ .conditionalBranch
  expand_eq : ∀ t, expand t m.operation operands = .ok [i]
  located?_eq : ∀ t pc, i.located? t pc = some d

section
variable {d : Instruction Int}

theorem readsBack_of_spells {m : Mnemonic} {operands : List Operand} {i : SymbolicInstruction}
    (texts : List (List Char)) (hm : m ∈ Mnemonic.table)
    (hcategory : m.operation.category ≠ .data ∧ m.operation.category ≠ .conditionalBranch)
    (hrender : d.render.toList = statementText m.spelling.toList texts) (hne : texts ≠ [])
    (hspells : List.Forall₂ Spells texts operands)
    (hexpand : ∀ t, expand t m.operation operands = .ok [i])
    (hlocated : ∀ t pc, i.located? t pc = some d) : ReadsBack d m operands i where
  tight := by
    rw [hrender]
    exact tight_statementText (isToken_spelling m hm) hne hspells
  readText_eq := by
    have hword : m.operation ≠ .word := fun h => hcategory.1 (by rw [h]; rfl)
    rw [hrender, readText_statementText hm hword hne hspells]
  category_ne := hcategory.2
  expand_eq := hexpand
  located?_eq := hlocated

/-- The text of an arithmetic instruction with two sources is read back if the mnemonic with its
name stands for it. -/
theorem readsBack_alu {op : AluOp} {rd rn : Register} {source : Source} {m : Mnemonic}
    (hop : op ≠ .mov) (hm : m ∈ Mnemonic.table) (hcategory : m.operation.category = .arithmetic)
    (hname : m.spelling = op.name)
    (hshown : ∀ r ∈ (Instruction.alu op rd rn source).shownRegisters, r.IsNameable)
    (hexpand : ∀ t, expand t m.operation [.register rd, .register rn, source.operand]
      = .ok [.alu op rd rn source]) :
    ReadsBack (.alu op rd rn source) m [.register rd, .register rn, source.operand]
      (.alu op rd rn source) := by
  simp only [Instruction.shownRegisters, if_neg hop, List.cons_append, List.nil_append,
    List.forall_mem_cons] at hshown
  obtain ⟨hrd, hrn, hsource⟩ := hshown
  refine readsBack_of_spells
    [rd.name.toList, rn.name.toList, (Instruction.renderSource source).toList] hm
    (by simp [hcategory]) ?_ (by simp)
    (.cons (spells_register hrd) (.cons (spells_register hrn)
      (.cons (spells_renderSource hsource) .nil))) hexpand fun _ _ => rfl
  cases op with
  | mov => exact absurd rfl hop
  | add | sub | lsl | slt =>
    simp [Instruction.render, Instruction.renderWith, statementText, commaSeparated, hname,
      List.intercalate_cons_cons]

/-- The text of a move, which does not show its first source, is read as a move from there. -/
theorem readsBack_move {rd : Register} {source : Source}
    (hshown : ∀ r ∈ (Instruction.alu .mov rd .zero source).shownRegisters, r.IsNameable) :
    ReadsBack (.alu .mov rd .zero source) ⟨"mov", .mov⟩ [.register rd, source.operand]
      (.alu .mov rd .zero source) := by
  simp only [Instruction.shownRegisters, if_true, List.cons_append, List.nil_append,
    List.forall_mem_cons] at hshown
  have hexpand : expandMove [.register rd, source.operand]
      = .ok [.alu .mov rd .zero source] := by
    rw [expandMove, sourceOf_operand]
    rfl
  refine readsBack_of_spells [rd.name.toList, (Instruction.renderSource source).toList]
    (by decide) (by decide) ?_ (by simp)
    (.cons (spells_register hshown.1) (.cons (spells_renderSource hshown.2) .nil))
    (fun _ => hexpand) fun _ _ => rfl
  simp [Instruction.render, Instruction.renderWith, statementText, commaSeparated,
    List.intercalate_cons_cons]

/-- The text of a transfer, which leaves out an offset of zero, is read back with its offset. -/
theorem readsBack_transfer {access : Access} {value base : Register} {offset : Int} {m : Mnemonic}
    (hm : m ∈ Mnemonic.table) (hcategory : m.operation.category = .transfer)
    (hname : m.spelling = Instruction.renderAccess access)
    (hexpand : ∀ t operands, expand t m.operation operands = expandTransfer t access operands)
    (hrange : (Instruction.transfer access value base offset false).InRange)
    (hshown : ∀ r ∈ (Instruction.transfer access value base offset false).shownRegisters,
      r.IsNameable) :
    ReadsBack (.transfer access value base offset false) m
      [.register value, .memory base (shownOffset offset) false]
      (.transfer access value base offset false) := by
  simp only [Instruction.shownRegisters, List.forall_mem_cons] at hshown
  obtain ⟨hvalue, hbase, -⟩ := hshown
  have hoffset : ∀ v ∈ shownOffset offset, fitsSigned 64 v = true := by
    intro v hv
    obtain rfl : offset = v := by
      by_cases h : offset = 0
      · simp [shownOffset, h] at hv
      · simpa [shownOffset, h] using hv
    rw [Instruction.InRange] at hrange
    exact fitsSigned_iff.2 ⟨by omega, by omega⟩
  have hspells := spells_memory hbase hoffset false
  rw [← toList_renderMemory] at hspells
  refine readsBack_of_spells
    [value.name.toList, (Instruction.renderMemory base offset false).toList] hm
    (by simp [hcategory]) ?_ (by simp) (.cons (spells_register hvalue) (.cons hspells .nil))
    (fun t => ?_) fun _ _ => rfl
  · simp [Instruction.render, Instruction.renderWith, statementText, commaSeparated, hname,
      List.intercalate_cons_cons]
  · rw [hexpand, expandTransfer, getD_shownOffset]

/-- The text of every such instruction is read as a statement that stands for it. -/
theorem exists_readsBack (hsource : d.IsSource) (hrange : d.InRange)
    (hshown : ∀ r ∈ d.shownRegisters, r.IsNameable) :
    ∃ m operands i, ReadsBack d m operands i := by
  cases hsource with
  | nop =>
    refine ⟨⟨"nop", .nop⟩, [], .nop, ?_⟩
    exact ⟨tight_of_isWord (by decide), toOption_eq_some_iff.1 (by decide +kernel), by decide,
      fun _ => rfl, fun _ _ => rfl⟩
  | exchange rm =>
    have hrm := hshown rm (List.mem_singleton_self rm)
    refine ⟨⟨"bx", .bx⟩, [.register rm], .exchange rm, ?_⟩
    refine readsBack_of_spells [rm.name.toList] (by decide) (by decide) ?_ (by simp)
      (.cons (spells_register hrm) .nil) (fun _ => rfl) fun _ _ => rfl
    simp [Instruction.render, Instruction.renderWith, statementText, commaSeparated]
  | transfer access value base offset =>
    cases access with
    | load =>
      exact ⟨⟨"ldr", .ldr⟩, _, _, readsBack_transfer (by decide) rfl rfl (fun _ _ => rfl) hrange
        hshown⟩
    | store =>
      exact ⟨⟨"str", .str⟩, _, _, readsBack_transfer (by decide) rfl rfl (fun _ _ => rfl) hrange
        hshown⟩
  | add rd rn source =>
    exact ⟨⟨"add", .add⟩, _, _, readsBack_alu (by decide) (by decide) rfl rfl hshown
      fun _ => sum_operand .add .sub rd rn source⟩
  | sub rd rn source =>
    exact ⟨⟨"sub", .sub⟩, _, _, readsBack_alu (by decide) (by decide) rfl rfl hshown
      fun _ => sum_operand .sub .add rd rn source⟩
  | shift rd rn rm =>
    exact ⟨⟨"lsl", .lsl⟩, _, _, readsBack_alu (by decide) (by decide) rfl rfl hshown
      fun _ => rfl⟩
  | move rd source => exact ⟨_, _, _, readsBack_move hshown⟩

end

/-! ## Assembling one line -/

section
variable {config : Config} {line : SourceLine} {m : Mnemonic} {operands : List Operand}
  {i : SymbolicInstruction} {w : Word}

theorem sourceInstructions_singleton (hprologue : config.prologue = false) {t : SymbolTable}
    (hexpand : expand t m.operation operands = .ok [i]) :
    sourceInstructions config t [⟨line, .instruction m operands⟩] = [i] := by
  simp [sourceInstructions, startInstructions, hprologue, SourceStatement.instructions, hexpand,
    Except.toOption]

theorem directWords?_singleton (hpad : config.hazardPad = 0) {t : SymbolTable} {pc : Address}
    (hword : i.wordAt? t pc = some w) : directWords? config t pc [i] = some [w] := by
  simp [directWords?, hword, padded, padding, hpad]

/-- A single statement that is no conditional branch can be assembled if its only instruction has a
word and there is room for it. -/
theorem encodable_singleton (hpad : config.hazardPad = 0) (hprologue : config.prologue = false)
    (hroom : config.textStart.toNat + 1 < UInt32.size)
    (hcategory : m.operation.category ≠ .conditionalBranch)
    (hexpand : ∀ t, expand t m.operation operands = .ok [i])
    (hword : ∀ t pc, i.wordAt? t pc = some w) :
    Encodable config [⟨line, .instruction m operands⟩] where
  nodup := List.nodup_nil
  dataRoom := config.dataStart.toNat_lt_size
  values v hv := absurd hv List.not_mem_nil
  expands := by
    intro s hs m' operands' h
    obtain rfl := List.mem_singleton.1 hs
    obtain ⟨rfl, rfl⟩ := Statement.instruction.inj h
    exact ⟨[i], hexpand _⟩
  compared _ := by
    refine compared_concat.2 ⟨compared_nil, fun hbranch => absurd ?_ hcategory⟩
    exact of_decide_eq_true hbranch
  textRoom := by
    have hspan : span config i = 1 := by simp [span, padding, hpad]
    rw [position, sourceInstructions_singleton hprologue (hexpand _), wordCount_cons,
      wordCount_nil, hspan]
    exact hroom
  words := by
    rw [sourceInstructions_singleton hprologue (hexpand _), directWords?_singleton hpad (hword _ _)]
    rfl

/-- Without a prologue and without padding, the program of a single statement is its word. -/
theorem exists_assemble_singleton (hpad : config.hazardPad = 0)
    (hprologue : config.prologue = false) (hroom : config.textStart.toNat + 1 < UInt32.size)
    (hread : Statement.read line = .ok (.instruction m operands))
    (hcategory : m.operation.category ≠ .conditionalBranch)
    (hexpand : ∀ t, expand t m.operation operands = .ok [i])
    (hword : ∀ t pc, i.wordAt? t pc = some w) :
    ∃ p, assemble config [line] = .ok p ∧ p.instructions.toList.map Prod.snd = [w] := by
  have hvalid : config.validate = .ok () := by simp [Config.validate, hprologue]
  have hreads := readAll_singleton hread
  obtain ⟨p, hp⟩ := (exists_assemble_iff hvalid).2 ⟨_, hreads,
    encodable_singleton hpad hprologue hroom hcategory hexpand hword⟩
  obtain ⟨ss, hss, hassembled⟩ := assembled_of_assemble_eq_ok hp
  obtain rfl := Except.ok.inj (hreads.symm.trans hss)
  have hwords := hassembled.instructionWords
  rw [sourceInstructions_singleton hprologue (hexpand _), directWords?_singleton hpad (hword _ _),
    Option.some_inj] at hwords
  exact ⟨p, hp, hwords.symm⟩

end

theorem ofTexts_singleton {text : String} (h : Tight text.toList) :
    SourceLine.ofTexts [text] = [⟨0, text⟩] := by
  obtain ⟨c, rest, hcons, -⟩ := h.head
  have htext : String.ofList (c :: rest) = text := by rw [← hcons, String.ofList_toList]
  rw [SourceLine.ofTexts, SourceLine.ofTextsFrom, h.trim_eq, hcons, ← htext]
  rfl

/-- The instruction of a word that encoding gives has that word, also if it was another one that was
encoded. -/
theorem encode_of_decode {i d : Instruction Int} {w : Word} (hencode : i.encode = .ok w)
    (hdecode : decode w = some d) : d.encode = .ok w := by
  rw [Instruction.decode_of_encode hencode, Option.some_inj] at hdecode
  subst hdecode
  by_cases hidle : i = .idleMove
  · rw [if_pos hidle, ← hencode, hidle, Instruction.encode_idleMove]
    rfl
  · rw [if_neg hidle, hencode]

/-- **Disassembled text assembles to the word it was shown for.**  The word is one that encoding
gives, its instruction is one whose text is source text, and every register shown is one that source
text can name.  The program starts anywhere where there is room for its only word. -/
theorem same_word_of_shown {config : Config} {w : Word} {i d : Instruction Int}
    (hpad : config.hazardPad = 0) (hprologue : config.prologue = false)
    (hroom : config.textStart.toNat + 1 < UInt32.size)
    (hencode : i.encode = .ok w) (hdecode : decode w = some d) (hsource : d.IsSource)
    (hshown : ∀ r ∈ d.shownRegisters, r.IsNameable) :
    ∃ p, assemble config (SourceLine.ofTexts [d.render]) = .ok p ∧
      p.instructions.toList.map Prod.snd = [w] := by
  have hd := encode_of_decode hencode hdecode
  obtain ⟨m, operands, symbolic, hreads⟩ :=
    exists_readsBack hsource (Instruction.exists_encode_iff.1 ⟨w, hd⟩) hshown
  have hread : Statement.read ⟨0, d.render⟩ = .ok (.instruction m operands) := by
    rw [Statement.read, hreads.tight.trim_eq, hreads.readText_eq]
    rfl
  rw [ofTexts_singleton hreads.tight]
  refine exists_assemble_singleton hpad hprologue hroom hread hreads.category_ne hreads.expand_eq
    fun t pc => ?_
  rw [Instruction.wordAt?, hreads.located?_eq, Option.bind_some, hd]
  rfl

/-- A load from below the stack pointer, shown with a decimal offset, and a subtraction, shown with
a hexadecimal immediate. -/
theorem same_word_of_shown_load :
    (∃ p, assemble bareConfig (SourceLine.ofTexts ["ldr lr, [sp, #-12]"]) = .ok p ∧
      p.instructions.toList.map Prod.snd = [0xE71CE00C]) ∧
    ∃ p, assemble bareConfig (SourceLine.ofTexts ["sub fp, sp, #0xff"]) = .ok p ∧
      p.instructions.toList.map Prod.snd = [0xE2ACD0FF] := by
  have hload : (Instruction.transfer .load .lr .sp (-12) false).render = "ldr lr, [sp, #-12]" := by
    decide +kernel
  have hsub : (Instruction.alu .sub .fp .sp (.immediate 0xFF)).render = "sub fp, sp, #0xff" := by
    decide +kernel
  have hencode : (Instruction.transfer .load .lr .sp (-12) false).encode = .ok 0xE71CE00C := by
    decide
  have hencode' : (Instruction.alu .sub .fp .sp (.immediate 0xFF)).encode = .ok 0xE2ACD0FF := by
    decide
  constructor
  · rw [← hload]
    exact same_word_of_shown rfl rfl (by decide) hencode (by decide) (.transfer ..) (by decide)
  · rw [← hsub]
    exact same_word_of_shown rfl rfl (by decide) hencode' (by decide) (.sub ..) (by decide)

end FlaglessAsm
