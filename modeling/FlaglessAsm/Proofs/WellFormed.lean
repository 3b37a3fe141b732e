import FlaglessAsm.Proofs.Encoding
import FlaglessAsm.Proofs.Unresolved

/-!
# Source texts that can be assembled

`WellFormed` says when a source text can be assembled, without mentioning the assembler: it speaks
of statements, of the labels in front of them and of the places that words end up at.  The checks
that enforce it are spread over reading, the first pass, the second pass and the patching of
branches; a branch is checked in one place or another, as its label comes before it or behind.

## What is here

* `BranchReaches`, `WellFormed`: what is asked of a branch, and of a source text.
* `wellFormed_iff_encodable`: this is what an assembly checks.
* `assemble_ok_iff_wellFormed`: the assembler succeeds exactly on well-formed source texts.
-/

set_option autoImplicit false

namespace FlaglessAsm

/-! ## Conditions on a source text -/

/-- Whether an instruction is a branch. -/
def Instruction.isBranch {Target : Type} : Instruction Target → Bool
  | .branch .. => true
  | _ => false

/-- A branch at an address goes to a label in front of an instruction or at the end, and its
displacement fits. -/
def BranchReaches (config : Config) (ss : List SourceStatement) (pc : Address)
    (condition : Condition) (label : String) : Prop :=
  ∃ front line rest target, ss = front ++ ⟨line, .label label⟩ :: rest ∧
    isCodePlace (nextStatement rest) = true ∧
    (labelTable config ss).code? label = some target ∧
    -2 ^ (condition.displacementBits - 1) ≤ Instruction.displacement target pc ∧
    Instruction.displacement target pc < 2 ^ (condition.displacementBits - 1)

/-- A source text can be assembled. -/
structure WellFormed (config : Config) (ss : List SourceStatement) : Prop where
  /-- No label is declared twice. -/
  nodup : (labelNames ss).Nodup
  /-- Data words hold 64-bit numbers, with or without a sign. -/
  values : ∀ v ∈ dataValues ss, -2 ^ 63 ≤ v ∧ v ≤ 2 ^ 64 - 1
  dataRoom : config.dataStart.toNat + (dataValues ss).length ≤ 2 ^ 32 - 1
  expands : ∀ s ∈ ss, s.Expands (labelTable config ss)
  /-- Every instruction that is not a branch has a word. -/
  encodes : ∀ s ∈ ss, ∀ i ∈ s.instructions (labelTable config ss), i.isBranch = false →
    ∀ pc, (i.wordAt? (labelTable config ss) pc).isSome
  compared : config.strictCompare = true → Compared ss
  branches : ∀ pc condition label,
    (pc, .branch condition label)
      ∈ placed config config.textStart (sourceInstructions config (labelTable config ss) ss) →
    BranchReaches config ss pc condition label
  textRoom : config.textStart.toNat
    + wordCount config (sourceInstructions config (labelTable config ss) ss) ≤ 2 ^ 32 - 1

/-! ## Words of instructions -/

theorem exists_splitData_iff {v : Int} :
    (∃ halves, splitData v = .ok halves) ↔ -2 ^ 63 ≤ v ∧ v ≤ 2 ^ 64 - 1 := by
  have hmin : Int64.minValue.toInt = -2 ^ 63 := by decide
  have hsize : (UInt64.size : Int) = 2 ^ 64 := by decide
  rw [splitData, hmin, hsize]
  split
  · exact ⟨fun _ => by omega, fun _ => ⟨_, rfl⟩⟩
  · simp
    omega

section
variable {config : Config} {t : SymbolTable} {pc : Address} {is : List SymbolicInstruction}

theorem snd_mem_of_mem_placed {p : Address × SymbolicInstruction} (h : p ∈ placed config pc is) :
    p.2 ∈ is := by
  induction is generalizing pc with
  | nil => simp [placed] at h
  | cons i is ih =>
    rcases List.mem_cons.1 h with rfl | h
    · exact List.mem_cons_self ..
    · exact List.mem_cons_of_mem _ (ih h)

theorem exists_mem_placed {i : SymbolicInstruction} (h : i ∈ is) :
    ∃ a, (a, i) ∈ placed config pc is := by
  induction is generalizing pc with
  | nil => simp at h
  | cons j is ih =>
    rcases List.mem_cons.1 h with rfl | h
    · exact ⟨pc, List.mem_cons_self ..⟩
    · obtain ⟨a, ha⟩ : ∃ a, (a, i) ∈ placed config (pc + UInt32.ofNat (span config j)) is := ih h
      exact ⟨a, List.mem_cons_of_mem _ ha⟩

/-- Only the words of branches depend on labels and on their addresses. -/
theorem wordAt?_eq_of_isBranch_eq_false {i : SymbolicInstruction} (h : i.isBranch = false)
    (u : SymbolTable) (a b : Address) : i.wordAt? t a = i.wordAt? u b := by
  cases i with
  | branch => simp [Instruction.isBranch] at h
  | _ => rfl

theorem isSome_toOption_encode_iff {i : Instruction Int} :
    i.encode.toOption.isSome = true ↔ i.InRange := by
  rw [← Instruction.exists_encode_iff, Option.isSome_iff_exists]
  simp only [toOption_eq_some_iff]

theorem isSome_wordAt?_branch_iff {condition : Condition} {label : String} :
    (Instruction.wordAt? t pc (.branch condition label)).isSome = true ↔
      ∃ target, t.code? label = some target ∧
        (Instruction.branch condition (Instruction.displacement target pc)).InRange := by
  rw [Instruction.wordAt?, Instruction.located?]
  cases t.code? label with
  | none => simp
  | some target => simp [isSome_toOption_encode_iff]

/-- A configuration is accepted only if its prologue has words. -/
theorem isSome_wordAt?_of_mem_startInstructions (hvalid : config.validate = .ok ())
    {i : SymbolicInstruction} (h : i ∈ startInstructions config) :
    (i.wordAt? t pc).isSome = true := by
  rw [startInstructions] at h
  split at h
  · next hprologue =>
    have hbase : config.workspaceBase.toNat < 2 ^ 8 := by
      refine Nat.lt_succ_of_le (Nat.le_of_not_lt fun hlt => ?_)
      rw [Config.validate, if_pos] at hvalid
      · cases hvalid
      · simp [hprologue, UInt32.lt_iff_toNat_lt, hlt]
    have hmove (rd : Register) (v : Word) (hv : v.toNat < 2 ^ 8) :
        (Instruction.wordAt? t pc (moveTo rd (.immediate v))).isSome = true :=
      isSome_toOption_encode_iff.2 hv
    simp only [Session.prologue, List.mem_cons, List.not_mem_nil, or_false] at h
    rcases h with rfl | rfl | rfl
    · exact hmove .sp _ hbase
    · exact hmove .fp _ hbase
    · exact hmove .lr 0 (by decide)
  · simp at h

end

/-! ## Conditions and checks -/

section
variable {config : Config} {ss : List SourceStatement}

/-- A label with a code address stands in front of an instruction or at the end. -/
theorem isCodePlace_of_code?_labelTable (hnd : (labelNames ss).Nodup) {label : String}
    {target : Address} (h : (labelTable config ss).code? label = some target) :
    ∃ front line rest, ss = front ++ ⟨line, .label label⟩ :: rest ∧
      isCodePlace (nextStatement rest) = true := by
  rw [SymbolTable.code?] at h
  by_cases hmem : label ∈ labelNames ss
  · obtain ⟨front, line, rest, hss⟩ := mem_labelNames_iff.1 hmem
    refine ⟨front, line, rest, hss, ?_⟩
    rw [get?_labelTable_of_declared hnd hss] at h
    have hcode := @isCode_inFrontOf config (dataValues front).length
      (position config (labelTable config ss) front) rest
    rw [← hcode]
    generalize Binding.inFrontOf config _ _ _ = binding at h
    cases binding with
    | code => rfl
    | _ => simp at h
  · rw [get?_labelTable_of_not_mem hmem] at h
    simp at h

theorem isSome_wordAt?_iff_branchReaches (hnd : (labelNames ss).Nodup) {pc : Address}
    {condition : Condition} {label : String} :
    (Instruction.wordAt? (labelTable config ss) pc (.branch condition label)).isSome = true ↔
      BranchReaches config ss pc condition label := by
  rw [isSome_wordAt?_branch_iff]
  constructor
  · rintro ⟨target, hcode, hrange⟩
    obtain ⟨front, line, rest, hss, hplace⟩ := isCodePlace_of_code?_labelTable hnd hcode
    exact ⟨front, line, rest, target, hss, hplace, hcode, hrange⟩
  · rintro ⟨-, -, -, target, -, -, hcode, hrange⟩
    exact ⟨target, hcode, hrange⟩

/-- **A source text is well-formed exactly if it passes the checks of an assembly.** -/
theorem wellFormed_iff_encodable (hvalid : config.validate = .ok ()) :
    WellFormed config ss ↔ Encodable config ss := by
  constructor
  · intro h
    refine ⟨h.nodup, Nat.lt_succ_of_le h.dataRoom,
      fun v hv => exists_splitData_iff.2 (h.values v hv), h.expands, h.compared,
      Nat.lt_succ_of_le h.textRoom, ?_⟩
    rw [directWords?_isSome_iff]
    rintro ⟨pc, i⟩ hp
    cases hbranch : i.isBranch with
    | true =>
      cases i with
      | branch condition label =>
        exact (isSome_wordAt?_iff_branchReaches h.nodup).2 (h.branches pc condition label hp)
      | _ => simp [Instruction.isBranch] at hbranch
    | false =>
      rcases List.mem_append.1 (snd_mem_of_mem_placed hp) with hstart | hsource
      · exact isSome_wordAt?_of_mem_startInstructions hvalid hstart
      · obtain ⟨s, hs, hi⟩ := List.mem_flatMap.1 hsource
        exact h.encodes s hs i hi hbranch pc
  · intro h
    have hwords := (directWords?_isSome_iff config _ _ _).1 h.words
    refine ⟨h.nodup, fun v hv => exists_splitData_iff.1 (h.values v hv),
      Nat.le_of_lt_succ h.dataRoom, h.expands, fun s hs i hi hbranch pc => ?_, h.compared,
      fun pc condition label hp => (isSome_wordAt?_iff_branchReaches h.nodup).1 (hwords _ hp),
      Nat.le_of_lt_succ h.textRoom⟩
    have hmem : i ∈ sourceInstructions config (labelTable config ss) ss :=
      List.mem_append_right _ (List.mem_flatMap.2 ⟨s, hs, hi⟩)
    obtain ⟨a, ha⟩ : ∃ a, (a, i) ∈ placed config config.textStart _ := exists_mem_placed hmem
    rw [wordAt?_eq_of_isBranch_eq_false hbranch _ pc a]
    exact hwords (a, i) ha

end

/-! ## Reading -/

/-- Lines are read one by one, and all of them have to be statements. -/
theorem readAll_eq_ok_iff {lines : List SourceLine} {ss : List SourceStatement} :
    SourceStatement.readAll lines = .ok ss ↔ ss.map SourceStatement.line = lines ∧
      ∀ s ∈ ss, Statement.read s.line = .ok s.statement := by
  induction lines generalizing ss with
  | nil =>
    constructor
    · rintro ⟨⟩
      exact ⟨rfl, by simp⟩
    · rintro ⟨hlines, -⟩
      rw [List.map_eq_nil_iff.1 hlines]
      rfl
  | cons line lines ih =>
    rw [readAll_cons]
    constructor
    · intro h
      cases hread : Statement.read line with
      | error e =>
        rw [hread] at h
        cases h
      | ok statement =>
        rw [hread] at h
        obtain ⟨rest, hrest, rfl⟩ := map_eq_ok_iff.1 h
        obtain ⟨rfl, hall⟩ := ih.1 hrest
        exact ⟨rfl, List.forall_mem_cons.2 ⟨hread, hall⟩⟩
    · rintro ⟨hlines, hall⟩
      obtain ⟨s, rest, rfl, rfl, hrest⟩ := List.map_eq_cons_iff.1 hlines
      obtain ⟨hs, hall⟩ := List.forall_mem_cons.1 hall
      rw [hs]
      exact map_eq_ok_iff.2 ⟨rest, ih.2 ⟨hrest, hall⟩, rfl⟩

theorem readAll_singleton {line : SourceLine} {x : Statement} (h : Statement.read line = .ok x) :
    SourceStatement.readAll [line] = .ok [⟨line, x⟩] := by
  simp [readAll_eq_ok_iff, h]

/-- **The assembler succeeds exactly on well-formed source texts**, and calls a label unresolved
only if no line declares it. -/
theorem assemble_ok_iff_wellFormed {config : Config} (hvalid : config.validate = .ok ())
    (lines : List SourceLine) :
    ((∃ p, assemble config lines = .ok p) ↔
      ∃ statements, statements.map SourceStatement.line = lines ∧
        (∀ s ∈ statements, Statement.read s.line = .ok s.statement) ∧
        WellFormed config statements) ∧
    ∀ line label, assemble config lines = .error (.onLine line (.unresolved label)) →
      ∃ statements, statements.map SourceStatement.line = lines ∧
        (∀ s ∈ statements, Statement.read s.line = .ok s.statement) ∧
        label ∉ labelNames statements := by
  constructor
  · simp only [exists_assemble_iff hvalid, readAll_eq_ok_iff, wellFormed_iff_encodable hvalid,
      and_assoc]
  · intro line label h
    obtain ⟨statements, hread, hmem⟩ := not_mem_of_assemble_eq_error h rfl
    obtain ⟨hlines, hread⟩ := readAll_eq_ok_iff.1 hread
    exact ⟨statements, hlines, hread, hmem⟩

/-- The loop is well-formed. -/
theorem wellFormed_of_loop : loopConfig.validate = .ok () ∧
    ∃ statements, statements.map SourceStatement.line = loopSource ∧
      (∀ s ∈ statements, Statement.read s.line = .ok s.statement) ∧
      WellFormed loopConfig statements :=
  ⟨rfl, (assemble_ok_iff_wellFormed rfl loopSource).1.1 exists_assemble_loop⟩

end FlaglessAsm
