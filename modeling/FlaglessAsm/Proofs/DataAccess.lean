import FlaglessAsm.Proofs.Loading
import FlaglessAsm.Proofs.Stream
import Mathlib.Data.Int.ModEq

/-!
# Accesses to data labels

A load or store may name a data label instead of a memory operand.  Its word then holds an address,
which was counted before any instruction was encoded, while the data words are written by another
count later on.  The two counts agree: the address in the word is where the image of the program
holds the number that the label stands in front of, wherever the label is declared.

## What is here

* `splitData_modEq`: the halves of a data word spell its number, modulo `2 ^ 64`.
* `expandLabelTransfer_eq_ok`: the instruction of an access to a label.
* `Access.operation`, `HoldsDatum`: what an access asks for, and what it finds.
* `Assembled.holdsDatum`: the address of a data label holds its number.
* `data_access_of_assemble`: accesses to data labels, and loads of pointer labels.
-/

set_option autoImplicit false

namespace FlaglessAsm

open Std

/-! ## Halves of data words -/

/-- **The halves of a data word spell its number**, modulo `2 ^ 64`. -/
theorem splitData_modEq {v : Int} {high low : Word} (h : splitData v = .ok (high, low)) :
    ((high.toNat * 2 ^ 32 + low.toNat : Nat) : Int) ≡ v [ZMOD 2 ^ 64] := by
  rw [splitData] at h
  split at h
  · have hsize : (UInt64.size : Int) = 2 ^ 64 := by decide
    have hword : UInt32.size = 2 ^ 32 := by decide
    rw [Except.ok.injEq, Prod.mk.injEq, hsize, hword] at h
    obtain ⟨rfl, rfl⟩ := h
    have hbits : (v % 2 ^ 64).toNat < 2 ^ 64 := by omega
    rw [UInt32.toNat_ofNat_of_lt' (by omega), UInt32.toNat_ofNat_of_lt' (by omega),
      Nat.div_add_mod', Int.toNat_of_nonneg (by omega)]
    exact Int.mod_modEq v (2 ^ 64)
  · cases h

/-! ## Instructions of accesses -/

theorem dataAddress_eq_ok_iff {t : SymbolTable} {label : String} {a : Address} :
    dataAddress t label = .ok a ↔ t.get? label = some (.data a) := by
  rw [← SymbolTable.data?_eq_some_iff, dataAddress]
  cases t.data? label with
  | some address => simp
  | none => by_cases hdeclared : t.isDeclared label = true <;> simp [hdeclared]

/-- An access to a label is an access to its address, or a move of the address that it points to. -/
theorem expandLabelTransfer_eq_ok {t : SymbolTable} {access : Access} {rd : Register}
    {label : String} {is : List SymbolicInstruction}
    (h : expandLabelTransfer t access rd label = .ok is) :
    (∃ a, t.get? label = some (.data a) ∧
      is = [.transfer access rd .zero a.toNat false]) ∨
    ∃ target a, access = .load ∧ t.get? label = some (.pointer target) ∧
      t.get? target = some (.data a) ∧ is = [moveTo rd (.immediate a)] := by
  unfold expandLabelTransfer at h
  cases hpointer : t.pointer? label with
  | none =>
    rw [hpointer] at h
    obtain ⟨a, ha, rfl⟩ := map_eq_ok_iff.1 h
    exact .inl ⟨a, dataAddress_eq_ok_iff.1 ha, rfl⟩
  | some target =>
    rw [hpointer] at h
    cases access with
    | store => cases h
    | load =>
      obtain ⟨a, ha, rfl⟩ := map_eq_ok_iff.1 h
      exact .inr ⟨target, a, rfl, SymbolTable.pointer?_eq_some_iff.1 hpointer,
        dataAddress_eq_ok_iff.1 ha, rfl⟩

section
variable {t : SymbolTable} {pc : Address} {w : Word}

theorem decode_of_wordAt?_transfer {access : Access} {rd base : Register} {offset : Int}
    {writeback : Bool}
    (h : Instruction.wordAt? t pc (.transfer access rd base offset writeback) = some w) :
    decode w = some (.transfer access rd base offset writeback) ∧ offset.natAbs < 2 ^ 8 := by
  obtain ⟨hrange, hw⟩ := Instruction.encode_eq_ok_iff.1 (toOption_eq_some_iff.1 h)
  exact ⟨(decode_transfer hrange hw).2, hrange⟩

theorem decode_of_wordAt?_moveTo {rd : Register} {v : Word}
    (h : Instruction.wordAt? t pc (moveTo rd (.immediate v)) = some w) :
    decode w = some (.alu .mov rd .zero (.immediate v)) ∧ v.toNat < 2 ^ 8 := by
  obtain ⟨hrange, hw⟩ := Instruction.encode_eq_ok_iff.1 (toOption_eq_some_iff.1 h)
  refine ⟨decode_alu hrange hw ?_, hrange⟩
  -- The no-op is a move as well, but of a register.
  have hrd := rd.code.isLt
  rw [Instruction.bits_alu] at hw
  simp only [Instruction.sourceKindField, AluOp.opcode, Register.zero] at hw
  exact ne_nopWord hw (by omega)

end

/-! ## Data words of programs -/

/-- The operation that makes an access. -/
def Access.operation : Access → Operation
  | .load => .ldr
  | .store => .str

/-- The number that a label stands in front of is the data word at an address: the program writes it
there, behind the data words of the numbers in front of it, and the image holds it. -/
def HoldsDatum (ss : List SourceStatement) (p : Program) (img : Image) (label : String)
    (a : Address) : Prop :=
  ∃ front line labels line' v rest high low,
    ss = front ++ ⟨line, .label label⟩ :: labels ++ ⟨line', .word (.value v)⟩ :: rest ∧
    (∀ s ∈ labels, s.statement.isLabel = true) ∧
    p.data[(dataValues front).length]? = some (a, high, low) ∧
    img.data[a]? = some (high, low) ∧
    ((high.toNat * 2 ^ 32 + low.toNat : Nat) : Int) ≡ v [ZMOD 2 ^ 64]

section
variable {config : Config} {ss : List SourceStatement} {p : Program} {img : Image}

/-- The data words of a program, by position. -/
theorem Assembled.getElem?_data (h : Assembled config ss p) {k : Nat} {v : Int}
    (hv : (dataValues ss)[k]? = some v) :
    ∃ high low, splitData v = .ok (high, low) ∧
      p.data[k]? = some (config.dataStart + UInt32.ofNat k, high, low) := by
  obtain ⟨halves, words, hvalues, -, hlist⟩ := h.words_eq
  have hk := congrArg (·[k]?) hvalues
  simp only [List.getElem?_map, hv, Option.map_some] at hk
  obtain ⟨⟨high, low⟩, hhalf, hsplit⟩ := Option.map_eq_some_iff.1 hk.symm
  refine ⟨high, low, hsplit.symm, ?_⟩
  rw [← Array.getElem?_toList, Program.toList_data hlist, dataCells]
  simp [hhalf]

/-- What stands behind a data label. -/
theorem Assembled.exists_of_get?_eq_data (h : Assembled config ss p) {label : String} {a : Address}
    (hget : p.symbols.get? label = some (.data a)) :
    ∃ front line labels line' v rest,
      ss = front ++ ⟨line, .label label⟩ :: labels ++ ⟨line', .word (.value v)⟩ :: rest ∧
      (∀ s ∈ labels, s.statement.isLabel = true) ∧
      a = config.dataStart + UInt32.ofNat (dataValues front).length := by
  have hmem : label ∈ labelNames ss := (h.isSome_get?_iff label).1 (by rw [hget]; rfl)
  obtain ⟨front, line, rest, hss⟩ := mem_labelNames_iff.1 hmem
  rw [h.get?_eq, get?_labelTable_of_declared h.encodable.nodup hss, Option.some_inj] at hget
  rcases hnext : nextStatement rest with _ | (_ | (v | _) | _) <;> rw [hnext] at hget
  case some.word.value =>
    obtain ⟨labels, line', rest', rfl, hlabels⟩ := exists_append_of_nextStatement hnext
    refine ⟨front, line, labels, line', v, rest', by rw [hss]; simp, hlabels, ?_⟩
    exact (Binding.data.inj hget).symm
  all_goals cases hget

/-- **The address of a data label holds the number behind it.** -/
theorem Assembled.holdsDatum (h : Assembled config ss p)
    (himg : img.data.toList = p.data.toList) {label : String} {a : Address}
    (hget : p.symbols.get? label = some (.data a)) : HoldsDatum ss p img label a := by
  obtain ⟨front, line, labels, line', v, rest, hss, hlabels, rfl⟩ := h.exists_of_get?_eq_data hget
  have hv : (dataValues ss)[(dataValues front).length]? = some v := by
    have hnone : dataValues (⟨line, .label label⟩ :: labels) = [] :=
      dataValues_of_isLabel (List.forall_mem_cons.2 ⟨rfl, hlabels⟩)
    have hvalue : dataValues (⟨line', .word (.value v)⟩ :: rest) = v :: dataValues rest := rfl
    rw [hss, dataValues_append, dataValues_append, hnone, hvalue, List.append_nil]
    simp
  obtain ⟨high, low, hsplit, hdata⟩ := h.getElem?_data hv
  refine ⟨front, line, labels, line', v, rest, high, low, hss, hlabels, hdata, ?_,
    splitData_modEq hsplit⟩
  rw [← TreeMap.mem_toList_iff_getElem?_eq_some, himg, Array.mem_toList_iff]
  exact Array.mem_of_getElem? hdata

/-- The one instruction of an access to a label, and its word. -/
theorem Assembled.exists_word_of_access (h : Assembled config ss p)
    {front rest : List SourceStatement} {line : SourceLine} {mnemonic : Mnemonic} {access : Access}
    {rd : Register} {label : String}
    (hss : ss = front ++ ⟨line, .instruction mnemonic [.register rd, .label label]⟩ :: rest)
    (hoperation : mnemonic.operation = access.operation) :
    ∃ i w, SourceStatement.instructions p.symbols
        ⟨line, .instruction mnemonic [.register rd, .label label]⟩ = [i] ∧
      expandLabelTransfer p.symbols access rd label = .ok [i] ∧
      i.wordAt? p.symbols (config.textStart + UInt32.ofNat (position config p.symbols front))
        = some w ∧
      p.word? (position config p.symbols front) = some w := by
  obtain ⟨is, hexpand⟩ := h.expands _ (hss ▸ List.mem_append_cons_self) mnemonic _ rfl
  have hinstructions := instructions_of_expand_eq_ok p.symbols hexpand line
  have htransfer : expandLabelTransfer p.symbols access rd label = .ok is := by
    rw [hoperation] at hexpand
    cases access <;> exact hexpand
  obtain ⟨i, rfl⟩ : ∃ i, is = [i] := by
    rcases expandLabelTransfer_eq_ok htransfer with ⟨a, -, his⟩ | ⟨target, a, -, -, -, his⟩
    · exact ⟨_, his⟩
    · exact ⟨_, his⟩
  have hsplit : sourceInstructions config p.symbols ss
      = sourceInstructions config p.symbols front
        ++ i :: rest.flatMap (·.instructions p.symbols) := by
    rw [hss, sourceInstructions_append, List.flatMap_cons, hinstructions, List.singleton_append]
  obtain ⟨w, hw, hword⟩ := h.word?_of_eq_append hsplit
  exact ⟨i, w, hinstructions, htransfer, hw, hword⟩

end

/-! ## From source text to image -/

/-- **An access to a data label reaches the number behind that label.**  Such a statement stands for
one instruction.  If its label is a data label, its word is a plain access at the offset of the
address from the zero register.  Otherwise it is a load of a pointer label to a data label, and its
word moves the address of the latter.  In either case the image of the program holds, at that
address, the number that the data label stands in front of. -/
theorem data_access_of_assemble {config : Config} {lines : List SourceLine} {p : Program}
    (h : assemble config lines = .ok p) (strict : Bool) :
    ∃ (statements : List SourceStatement) (img : Image),
      SourceStatement.readAll lines = .ok statements ∧
      (Image.load p.words.toList).run { strict } = .ok () img ∧
      ∀ front line mnemonic access rd label rest,
        statements = front ++ ⟨line, .instruction mnemonic [.register rd, .label label]⟩ :: rest →
        mnemonic.operation = Access.operation access →
        ∃ i w, SourceStatement.instructions p.symbols
            ⟨line, .instruction mnemonic [.register rd, .label label]⟩ = [i] ∧
          p.instructions[position config p.symbols front]?
            = some (config.textStart + UInt32.ofNat (position config p.symbols front), w) ∧
          ((∃ a, p.symbols.get? label = some (.data a) ∧ a.toNat ≤ 255 ∧
              decode w = some (.transfer access rd .zero a.toNat false) ∧
              HoldsDatum statements p img label a) ∨
            ∃ target a, access = .load ∧ p.symbols.get? label = some (.pointer target) ∧
              p.symbols.get? target = some (.data a) ∧
              decode w = some (.alu .mov rd .zero (.immediate a)) ∧
              HoldsDatum statements p img target a) := by
  obtain ⟨ss, hread, hp⟩ := assembled_of_assemble_eq_ok h
  obtain ⟨instructions, data, hload, -, hdata⟩ := hp.exists_image strict
  refine ⟨ss, _, hread, hload, fun front line mnemonic access rd label rest hss hoperation => ?_⟩
  obtain ⟨i, w, hinstructions, hexpand, hw, hword⟩ := hp.exists_word_of_access hss hoperation
  refine ⟨i, w, hinstructions, by rw [hp.getElem?_instructions, hword]; rfl, ?_⟩
  rcases expandLabelTransfer_eq_ok hexpand with
    ⟨a, hget, hi⟩ | ⟨target, a, haccess, hpointer, hget, hi⟩
  · obtain rfl := List.cons.inj hi |>.1
    obtain ⟨hdecode, hrange⟩ := decode_of_wordAt?_transfer hw
    exact .inl ⟨a, hget, by omega, hdecode, hp.holdsDatum hdata hget⟩
  · obtain rfl := List.cons.inj hi |>.1
    exact .inr ⟨target, a, haccess, hpointer, hget, (decode_of_wordAt?_moveTo hw).1,
      hp.holdsDatum hdata hget⟩

/-- A configuration that pads every instruction and has no prologue. -/
def poolConfig : Config :=
  { textStart := 16, dataStart := 4, hazardPad := 1, prologue := false }

/-- Accesses in front of the data: a load through a pointer, and a store behind another number. -/
def poolSource : List SourceLine :=
  [ ⟨1, "ldr fp, pool"⟩, ⟨2, "str sp, x"⟩, ⟨3, "bx lr"⟩, ⟨4, ".word 7"⟩, ⟨5, "x:"⟩, ⟨6, "y:"⟩,
    ⟨7, ".word -2"⟩, ⟨8, "pool:"⟩, ⟨9, ".word x"⟩ ]

/-- The statements of the accesses and the data. -/
def poolStatements : List SourceStatement :=
  [ ⟨⟨1, "ldr fp, pool"⟩, .instruction ⟨"ldr", .ldr⟩ [.register .fp, .label "pool"]⟩,
    ⟨⟨2, "str sp, x"⟩, .instruction ⟨"str", .str⟩ [.register .sp, .label "x"]⟩,
    ⟨⟨3, "bx lr"⟩, .instruction ⟨"bx", .bx⟩ [.register .lr]⟩,
    ⟨⟨4, ".word 7"⟩, .word (.value 7)⟩,
    ⟨⟨5, "x:"⟩, .label "x"⟩,
    ⟨⟨6, "y:"⟩, .label "y"⟩,
    ⟨⟨7, ".word -2"⟩, .word (.value (-2))⟩,
    ⟨⟨8, "pool:"⟩, .label "pool"⟩,
    ⟨⟨9, ".word x"⟩, .word (.symbol "x")⟩ ]

theorem readAll_poolSource : SourceStatement.readAll poolSource = .ok poolStatements :=
  toOption_eq_some_iff.1 (by decide +kernel)

/-- The second number is at address five.  The pointer is loaded by a move of that address, and the
store goes there. -/
theorem data_access_of_pool : ∃ p img, assemble poolConfig poolSource = .ok p ∧
    (Image.load p.words.toList).run { strict := true } = .ok () img ∧
    (∃ w, p.instructions[0]? = some (16, w) ∧
      decode w = some (.alu .mov .fp .zero (.immediate 5))) ∧
    (∃ w, p.instructions[2]? = some (18, w) ∧
      decode w = some (.transfer .store .sp .zero 5 false)) ∧
    HoldsDatum poolStatements p img "x" 5 := by
  obtain ⟨p, hp⟩ : ∃ p, assemble poolConfig poolSource = .ok p :=
    exists_eq_ok_of_isOk (by decide +kernel)
  obtain ⟨ss, img, hread, hload, haccess⟩ := data_access_of_assemble hp true
  obtain rfl : poolStatements = ss := Except.ok.inj (readAll_poolSource.symm.trans hread)
  obtain ⟨ss, hread, hassembled⟩ := assembled_of_assemble_eq_ok hp
  obtain rfl : poolStatements = ss := Except.ok.inj (readAll_poolSource.symm.trans hread)
  have hx : p.symbols.get? "x" = some (.data 5) := by
    have hss : poolStatements = poolStatements.take 4
        ++ ⟨⟨5, "x:"⟩, .label "x"⟩ :: [⟨⟨6, "y:"⟩, .label "y"⟩] ++ poolStatements.drop 6 := rfl
    exact hassembled.get?_of_declared hss (by simp [Statement.isLabel]) (by decide)
  have hpool : p.symbols.get? "pool" = some (.pointer "x") := by
    have hss : poolStatements = poolStatements.take 7
        ++ ⟨⟨8, "pool:"⟩, .label "pool"⟩ :: [] ++ poolStatements.drop 8 := rfl
    exact hassembled.get?_of_declared hss (by simp) (by decide)
  obtain ⟨i, w, hi, hw, hcases⟩ := haccess [] _ _ .load .fp "pool" _ rfl rfl
  obtain ⟨-, w', -, hw', hcases'⟩ := haccess (poolStatements.take 1) _ _ .store .sp "x" _ rfl rfl
  have hposition : position poolConfig p.symbols (poolStatements.take 1) = 2 := by
    have htake : sourceInstructions poolConfig p.symbols (poolStatements.take 1) = [i] :=
      (List.append_nil _).trans hi
    rw [position, htake]
    rfl
  rw [hposition] at hw'
  refine ⟨p, img, hp, hload, ⟨w, hw, ?_⟩, ⟨w', hw', ?_⟩, ?_⟩
  · rcases hcases with ⟨a, hget, -⟩ | ⟨target, a, -, hget, hdata, hdecode, -⟩
    · simp [hpool] at hget
    · obtain rfl : "x" = target := by simpa [hpool] using hget
      obtain rfl : 5 = a := by simpa [hx] using hdata
      exact hdecode
  · rcases hcases' with ⟨a, hget, -, hdecode, -⟩ | ⟨target, a, -, hget, -⟩
    · obtain rfl : 5 = a := by simpa [hx] using hget
      exact hdecode
    · simp [hx] at hget
  · rcases hcases' with ⟨a, hget, -, -, hdatum⟩ | ⟨target, a, -, hget, -⟩
    · obtain rfl : 5 = a := by simpa [hx] using hget
      exact hdatum
    · simp [hx] at hget

end FlaglessAsm
