import FlaglessAsm.Session.Placement
import Mathlib.Algebra.Ring.Nat

/-!
# Where words and labels stand

A program can be described from its statements alone, with no session: the instructions that the
statements stand for, one behind the other with their no-ops; the word of each instruction once the
place of every label is known; and what every label names.  This is the description that the session
is measured against.

## What is here

* `labelNames`, `dataValues`, `dataSymbols`, `nextStatement`: what a list of statements declares,
  stores and refers to, and the statement that a label stands in front of.
* `SourceStatement.instructions`, `sourceInstructions`: the instructions of a source text.
* `padding`, `span`, `wordCount`, `placed`: how many words instructions take, and where they stand.
* `Instruction.located?`, `Instruction.wordAt?`, `directWords?`: the word of an instruction at an
  address, all labels being known, and the words of a list of instructions.
* `Binding.inFrontOf`, `labelTable`: what a label names, and the table of all labels.
* `expand_congr`: the expansion of a statement does not depend on the places of code labels.  This
  is why `labelTable` can count the words in front of a label before it knows any place.
-/

set_option autoImplicit false

namespace FlaglessAsm

/-! ## Parts of statements -/

namespace Statement

/-- The label that a statement declares. -/
def declares? : Statement → Option String
  | .label name => some name
  | _ => none

/-- The number that a statement stores. -/
def stores? : Statement → Option Int
  | .word (.value n) => some n
  | _ => none

/-- The label that a data word refers to. -/
def refersTo? : Statement → Option String
  | .word (.symbol name) => some name
  | _ => none

/-- Whether a statement is a compare. -/
def isCompare : Statement → Bool
  | .instruction mnemonic _ => mnemonic.operation.category = .compare
  | _ => false

/-- Whether a statement is a conditional branch. -/
def isConditionalBranch : Statement → Bool
  | .instruction mnemonic _ => mnemonic.operation.category = .conditionalBranch
  | _ => false

/-- Whether a statement stands for instructions. -/
def isInstruction : Statement → Bool
  | .instruction .. => true
  | _ => false

end Statement

/-- The names of the labels declared by statements, in order. -/
def labelNames (ss : List SourceStatement) : List String :=
  ss.filterMap (·.statement.declares?)

/-- The numbers stored by statements, in order. -/
def dataValues (ss : List SourceStatement) : List Int :=
  ss.filterMap (·.statement.stores?)

/-- The labels that data words refer to, in order. -/
def dataSymbols (ss : List SourceStatement) : List String :=
  ss.filterMap (·.statement.refersTo?)

/-- The first statement that is not a label. -/
def nextStatement (ss : List SourceStatement) : Option Statement :=
  (ss.find? fun s => !s.statement.isLabel).map (·.statement)

/-! ## The instructions of a source text -/

namespace SourceStatement

/-- The instructions that a statement stands for; none if it cannot be expanded. -/
def instructions (t : SymbolTable) (s : SourceStatement) : List SymbolicInstruction :=
  match s.statement with
  | .instruction mnemonic operands => (expand t mnemonic.operation operands).toOption.getD []
  | _ => []

/-- A statement can be expanded if it is an instruction. -/
def Expands (t : SymbolTable) (s : SourceStatement) : Prop :=
  ∀ mnemonic operands, s.statement = .instruction mnemonic operands →
    ∃ is, expand t mnemonic.operation operands = .ok is

end SourceStatement

/-- The instructions in front of those of the source text. -/
def startInstructions (config : Config) : List SymbolicInstruction :=
  if config.prologue then Session.prologue config else []

/-- The instructions of a source text. -/
def sourceInstructions (config : Config) (t : SymbolTable) (ss : List SourceStatement) :
    List SymbolicInstruction :=
  startInstructions config ++ ss.flatMap (·.instructions t)

/-! ## Words taken -/

/-- The number of no-ops behind an instruction. -/
def padding (config : Config) (i : SymbolicInstruction) : Nat :=
  if config.padPolicy = .all ∨ i.writesRegister = true then config.hazardPad.toNat else 0

/-- The number of words that an instruction takes. -/
def span (config : Config) (i : SymbolicInstruction) : Nat :=
  padding config i + 1

/-- The number of words that a list of instructions takes. -/
def wordCount (config : Config) (is : List SymbolicInstruction) : Nat :=
  (is.map (span config)).sum

/-- Instructions with the addresses of their words, from an address on. -/
def placed (config : Config) :
    Address → List SymbolicInstruction → List (Address × SymbolicInstruction)
  | _, [] => []
  | pc, i :: rest => (pc, i) :: placed config (pc + UInt32.ofNat (span config i)) rest

/-! ## Direct encoding -/

/-- An instruction at an address, its branch going to the place of its label in a table. -/
def Instruction.located? (t : SymbolTable) (pc : Address) :
    SymbolicInstruction → Option (Instruction Int)
  | .branch condition label =>
    (t.code? label).map fun target => .branch condition (displacement target pc)
  | .nop => some .nop
  | .alu op rd rn source => some (.alu op rd rn source)
  | .transfer access value base offset writeback =>
    some (.transfer access value base offset writeback)
  | .exchange rm => some (.exchange rm)

/-- The word of an instruction at an address. -/
def Instruction.wordAt? (t : SymbolTable) (pc : Address) (i : SymbolicInstruction) : Option Word :=
  (i.located? t pc).bind fun located => located.encode.toOption

/-- A word and the no-ops behind it. -/
def padded (config : Config) (i : SymbolicInstruction) (word : Word) : List Word :=
  word :: List.replicate (padding config i) nopWord

/-- The words of a list of instructions from an address on, each at its place. -/
def directWords? (config : Config) (t : SymbolTable) :
    Address → List SymbolicInstruction → Option (List Word)
  | _, [] => some []
  | pc, i :: rest =>
    (i.wordAt? t pc).bind fun word =>
      (directWords? config t (pc + UInt32.ofNat (span config i)) rest).map
        (padded config i word ++ ·)

/-- Instruction words at consecutive addresses. -/
def instructionCells (start : Address) (words : List Word) : List InstructionCell :=
  words.mapIdx fun k word => ⟨start + UInt32.ofNat k, word⟩

/-- Data words at consecutive addresses. -/
def dataCells (start : Address) (halves : List (Word × Word)) : List DataCell :=
  halves.mapIdx fun k (high, low) => ⟨start + UInt32.ofNat k, high, low⟩

/-! ## Labels -/

/-- What the labels in front of a statement name, or those at the end, when `values` data words and
`words` instruction words stand before it. -/
def Binding.inFrontOf (config : Config) (values words : Nat) : Option Statement → Binding
  | some (.word (.value _)) => .data (config.dataStart + UInt32.ofNat values)
  | some (.word (.symbol target)) => .pointer target
  | _ => .code (config.textStart + UInt32.ofNat words) words

/-- The labels of statements behind `front` with what they name, when statements take as many words
as `size` says. -/
def bindingsFrom (config : Config) (size : List SourceStatement → Nat)
    (front : List SourceStatement) : List SourceStatement → List (String × Binding)
  | [] => []
  | s :: rest =>
    match s.statement with
    | .label name =>
      (name, .inFrontOf config (dataValues front).length (size front) (nextStatement rest))
        :: bindingsFrom config size (front ++ [s]) rest
    | _ => bindingsFrom config size (front ++ [s]) rest

/-- The labels of statements, when statements take as many words as `size` says. -/
def labelTableOf (config : Config) (size : List SourceStatement → Nat)
    (ss : List SourceStatement) : SymbolTable where
  bound := .ofList (bindingsFrom config size [] ss)
  declared := .ofList (ss.filterMap fun s => s.statement.declares?.map (·, s.line.index))

/-- The number of instruction words in front of the statement behind `front`. -/
def position (config : Config) (t : SymbolTable) (front : List SourceStatement) : Nat :=
  wordCount config (sourceInstructions config t front)

/-- The labels of a source text.  The data labels come first, as the expansion of a statement may
depend on them but not on the places of code labels. -/
def labelTable (config : Config) (ss : List SourceStatement) : SymbolTable :=
  labelTableOf config (position config (labelTableOf config (fun _ => 0) ss)) ss

/-! ## Kinds of statements -/

namespace Statement

variable {s : Statement}

theorem isInstruction_of_isLabel (h : s.isLabel = true) : s.isInstruction = false := by
  cases s with
  | label => rfl
  | _ => simp [isLabel] at h

theorem isInstruction_of_isConditionalBranch (h : s.isConditionalBranch = true) :
    s.isInstruction = true := by
  cases s with
  | instruction => rfl
  | _ => simp [isConditionalBranch] at h

theorem isInstruction_of_isCompare (h : s.isCompare = true) : s.isInstruction = true := by
  cases s with
  | instruction => rfl
  | _ => simp [isCompare] at h

end Statement

/-! ## Lists of statements -/

section
variable (as bs : List SourceStatement)

@[simp] theorem labelNames_append : labelNames (as ++ bs) = labelNames as ++ labelNames bs :=
  List.filterMap_append

@[simp] theorem dataValues_append : dataValues (as ++ bs) = dataValues as ++ dataValues bs :=
  List.filterMap_append

@[simp] theorem dataSymbols_append : dataSymbols (as ++ bs) = dataSymbols as ++ dataSymbols bs :=
  List.filterMap_append

end

theorem labelNames_singleton (s : SourceStatement) :
    labelNames [s] = s.statement.declares?.toList := by
  rw [labelNames]
  cases h : s.statement.declares? <;> simp [h]

theorem dataValues_singleton (s : SourceStatement) :
    dataValues [s] = s.statement.stores?.toList := by
  rw [dataValues]
  cases h : s.statement.stores? <;> simp [h]

theorem dataSymbols_singleton (s : SourceStatement) :
    dataSymbols [s] = s.statement.refersTo?.toList := by
  rw [dataSymbols]
  cases h : s.statement.refersTo? <;> simp [h]

theorem nextStatement_eq_head?_dropWhile (ss : List SourceStatement) :
    nextStatement ss = (ss.dropWhile fun s => s.statement.isLabel).head?.map (·.statement) := by
  rw [nextStatement]
  induction ss with
  | nil => rfl
  | cons s rest ih =>
    cases h : s.statement.isLabel with
    | true => simp [h, ih]
    | false => simp [h]

theorem dataValues_of_isLabel {labels : List SourceStatement}
    (h : ∀ s ∈ labels, s.statement.isLabel = true) : dataValues labels = [] := by
  refine List.filterMap_eq_nil_iff.2 fun s hs => ?_
  have hs := h s hs
  cases hstatement : s.statement with
  | label => rfl
  | _ => simp [hstatement, Statement.isLabel] at hs

theorem nextStatement_append_of_isLabel {labels : List SourceStatement}
    (h : ∀ s ∈ labels, s.statement.isLabel = true) (rest : List SourceStatement) :
    nextStatement (labels ++ rest) = nextStatement rest := by
  have hnone : labels.find? (fun s => !s.statement.isLabel) = none :=
    List.find?_eq_none.2 fun s hs => by simp [h s hs]
  rw [nextStatement, List.find?_append, hnone, Option.none_or, nextStatement]

theorem exists_append_of_nextStatement {ss : List SourceStatement} {s : Statement}
    (h : nextStatement ss = some s) : ∃ labels line rest, ss = labels ++ ⟨line, s⟩ :: rest ∧
      ∀ x ∈ labels, x.statement.isLabel = true := by
  obtain ⟨⟨line, s⟩, hfind, rfl⟩ := Option.map_eq_some_iff.1 h
  obtain ⟨-, labels, rest, rfl, hlabels⟩ := List.find?_eq_some_iff_append.1 hfind
  exact ⟨labels, line, rest, rfl, fun x hx => by simpa using hlabels x hx⟩

theorem nextStatement_of_head? {ss : List SourceStatement}
    (h : ∀ s ∈ ss.head?, s.statement.isLabel = false) :
    nextStatement ss = ss.head?.map (·.statement) := by
  cases ss with
  | nil => rfl
  | cons s rest => simp [nextStatement, h s rfl]

/-! ## Words taken by lists -/

section
variable (config : Config)

@[simp] theorem wordCount_nil : wordCount config [] = 0 := rfl

@[simp] theorem wordCount_cons (i : SymbolicInstruction) (is : List SymbolicInstruction) :
    wordCount config (i :: is) = span config i + wordCount config is := by
  simp [wordCount]

@[simp] theorem wordCount_append (is js : List SymbolicInstruction) :
    wordCount config (is ++ js) = wordCount config is + wordCount config js := by
  simp [wordCount]

theorem length_padded (i : SymbolicInstruction) (word : Word) :
    (padded config i word).length = span config i := by
  simp [padded, span]

theorem placed_append (pc : Address) (is js : List SymbolicInstruction) :
    placed config pc (is ++ js)
      = placed config pc is ++ placed config (pc + UInt32.ofNat (wordCount config is)) js := by
  induction is generalizing pc with
  | nil => simp [placed]
  | cons i is ih =>
    rw [List.cons_append, placed, placed, ih, List.cons_append, wordCount_cons, UInt32.ofNat_add,
      UInt32.add_assoc]

theorem directWords?_append (t : SymbolTable) (pc : Address) (is js : List SymbolicInstruction) :
    directWords? config t pc (is ++ js)
      = (directWords? config t pc is).bind fun ws =>
          (directWords? config t (pc + UInt32.ofNat (wordCount config is)) js).map (ws ++ ·) := by
  induction is generalizing pc with
  | nil => simp [directWords?]
  | cons i is ih =>
    rw [List.cons_append, directWords?, directWords?, ih, wordCount_cons, UInt32.ofNat_add,
      UInt32.add_assoc]
    cases i.wordAt? t pc with
    | none => rfl
    | some word =>
      cases directWords? config t (pc + UInt32.ofNat (span config i)) is with
      | none => rfl
      | some ws => simp [Function.comp_def]

theorem directWords?_concat (t : SymbolTable) (pc : Address) (is : List SymbolicInstruction)
    (i : SymbolicInstruction) :
    directWords? config t pc (is ++ [i])
      = (directWords? config t pc is).bind fun ws =>
          (i.wordAt? t (pc + UInt32.ofNat (wordCount config is))).map
            (ws ++ padded config i ·) := by
  rw [directWords?_append]
  congr
  funext ws
  rw [directWords?]
  cases i.wordAt? t (pc + UInt32.ofNat (wordCount config is)) with
  | none => rfl
  | some word => simp [directWords?]

theorem length_of_directWords?_eq_some {t : SymbolTable} {pc : Address}
    {is : List SymbolicInstruction} {ws : List Word} (h : directWords? config t pc is = some ws) :
    ws.length = wordCount config is := by
  induction is generalizing pc ws with
  | nil =>
    rw [directWords?, Option.some_inj] at h
    simp [← h]
  | cons i is ih =>
    rw [directWords?, Option.bind_eq_some_iff] at h
    obtain ⟨word, -, h⟩ := h
    obtain ⟨rest, hrest, rfl⟩ := Option.map_eq_some_iff.1 h
    rw [List.length_append, length_padded, ih hrest, wordCount_cons]

/-- A list of instructions has words exactly if each of them has one at its place. -/
theorem directWords?_isSome_iff (t : SymbolTable) (pc : Address) (is : List SymbolicInstruction) :
    (directWords? config t pc is).isSome ↔
      ∀ p ∈ placed config pc is, (p.2.wordAt? t p.1).isSome := by
  induction is generalizing pc with
  | nil => simp [directWords?, placed]
  | cons i is ih =>
    rw [directWords?, placed, List.forall_mem_cons, ← ih]
    cases i.wordAt? t pc <;> simp

end

theorem instructionCells_append (start : Address) (ws vs : List Word) :
    instructionCells start (ws ++ vs)
      = instructionCells start ws ++ instructionCells (start + UInt32.ofNat ws.length) vs := by
  simp only [instructionCells, List.mapIdx_append, UInt32.add_assoc, ← UInt32.ofNat_add,
    Nat.add_comm]

theorem instructionCells_cons (start : Address) (w : Word) (ws : List Word) :
    instructionCells start (w :: ws)
      = ⟨start, w⟩ :: instructionCells (start + UInt32.ofNat 1) ws := by
  rw [← List.singleton_append, instructionCells_append]
  simp [instructionCells]

theorem length_instructionCells (start : Address) (ws : List Word) :
    (instructionCells start ws).length = ws.length := by
  simp [instructionCells]

theorem dataCells_concat (start : Address) (halves : List (Word × Word)) (high low : Word) :
    dataCells start (halves ++ [(high, low)])
      = dataCells start halves ++ [⟨start + UInt32.ofNat halves.length, high, low⟩] := by
  simp [dataCells]

/-! ## What an expansion depends on -/

/-- Two tables have the same data labels, the same pointer labels and the same declarations. -/
structure SymbolTable.SameData (t u : SymbolTable) : Prop where
  data? : ∀ name, t.data? name = u.data? name
  pointer? : ∀ name, t.pointer? name = u.pointer? name
  isDeclared : ∀ name, t.isDeclared name = u.isDeclared name

theorem SymbolTable.SameData.symm {t u : SymbolTable} (h : t.SameData u) : u.SameData t :=
  ⟨fun name => (h.data? name).symm, fun name => (h.pointer? name).symm,
    fun name => (h.isDeclared name).symm⟩

theorem SymbolTable.SameData.trans {t u v : SymbolTable} (h : t.SameData u) (h' : u.SameData v) :
    t.SameData v :=
  ⟨fun name => (h.data? name).trans (h'.data? name),
    fun name => (h.pointer? name).trans (h'.pointer? name),
    fun name => (h.isDeclared name).trans (h'.isDeclared name)⟩

theorem dataAddress_congr {t u : SymbolTable} (h : t.SameData u) (label : String) :
    dataAddress t label = dataAddress u label := by
  rw [dataAddress, dataAddress, h.data?, h.isDeclared]

theorem expandLabelTransfer_congr {t u : SymbolTable} (h : t.SameData u) (access : Access)
    (value : Register) (label : String) :
    expandLabelTransfer t access value label = expandLabelTransfer u access value label := by
  simp only [expandLabelTransfer, h.pointer?, dataAddress_congr h]

theorem expandTransfer_congr {t u : SymbolTable} (h : t.SameData u) (access : Access)
    (operands : List Operand) :
    expandTransfer t access operands = expandTransfer u access operands := by
  simp only [expandTransfer, expandLabelTransfer_congr h]

/-- **The expansion of a statement does not depend on the places of code labels.** -/
theorem expand_congr {t u : SymbolTable} (h : t.SameData u) (operation : Operation)
    (operands : List Operand) : expand t operation operands = expand u operation operands := by
  cases operation with
  | ldr => exact expandTransfer_congr h .load operands
  | str => exact expandTransfer_congr h .store operands
  | _ => rfl

theorem SourceStatement.instructions_congr {t u : SymbolTable} (h : t.SameData u)
    (s : SourceStatement) : s.instructions t = s.instructions u := by
  simp only [SourceStatement.instructions, expand_congr h]

theorem sourceInstructions_congr {t u : SymbolTable} (h : t.SameData u) (config : Config)
    (ss : List SourceStatement) :
    sourceInstructions config t ss = sourceInstructions config u ss := by
  simp only [sourceInstructions, SourceStatement.instructions_congr h]

theorem position_congr {t u : SymbolTable} (h : t.SameData u) (config : Config)
    (front : List SourceStatement) : position config t front = position config u front := by
  rw [position, position, sourceInstructions_congr h]

/-! ## What an encoding depends on -/

section
variable {t u : SymbolTable} (h : ∀ name, t.get? name = u.get? name)
include h

theorem SymbolTable.code?_congr (name : String) : t.code? name = u.code? name := by
  rw [SymbolTable.code?, SymbolTable.code?, h]

theorem SymbolTable.sameData_of_get?_eq
    (hdeclared : ∀ name, t.isDeclared name = u.isDeclared name) :
    t.SameData u where
  data? name := by rw [SymbolTable.data?, SymbolTable.data?, h]
  pointer? name := by rw [SymbolTable.pointer?, SymbolTable.pointer?, h]
  isDeclared := hdeclared

theorem Instruction.wordAt?_congr (pc : Address) (i : SymbolicInstruction) :
    i.wordAt? t pc = i.wordAt? u pc := by
  cases i with
  | branch condition label =>
    rw [Instruction.wordAt?, Instruction.wordAt?, Instruction.located?, Instruction.located?,
      SymbolTable.code?_congr h]
  | _ => rfl

theorem directWords?_congr (config : Config) (pc : Address) (is : List SymbolicInstruction) :
    directWords? config t pc is = directWords? config u pc is := by
  induction is generalizing pc with
  | nil => rfl
  | cons i is ih => rw [directWords?, directWords?, Instruction.wordAt?_congr h, ih]

end

/-! ## Positions -/

section
variable (config : Config) (t : SymbolTable)

theorem sourceInstructions_append (front rest : List SourceStatement) :
    sourceInstructions config t (front ++ rest)
      = sourceInstructions config t front ++ rest.flatMap (·.instructions t) := by
  simp [sourceInstructions]

theorem sourceInstructions_concat (front : List SourceStatement) (s : SourceStatement) :
    sourceInstructions config t (front ++ [s])
      = sourceInstructions config t front ++ s.instructions t := by
  simp [sourceInstructions]

theorem instructions_of_expand_eq_ok {mnemonic : Mnemonic} {operands : List Operand}
    {is : List SymbolicInstruction} (h : expand t mnemonic.operation operands = .ok is)
    (line : SourceLine) :
    SourceStatement.instructions t ⟨line, .instruction mnemonic operands⟩ = is := by
  simp [SourceStatement.instructions, h, Except.toOption]

theorem instructions_of_isInstruction_eq_false {s : SourceStatement}
    (h : s.statement.isInstruction = false) : s.instructions t = [] := by
  obtain ⟨line, statement⟩ := s
  cases statement with
  | instruction => simp [Statement.isInstruction] at h
  | _ => rfl

/-- Labels take no words. -/
theorem position_append_of_isLabel (front : List SourceStatement) {labels : List SourceStatement}
    (h : ∀ s ∈ labels, s.statement.isLabel = true) :
    position config t (front ++ labels) = position config t front := by
  have hnil : labels.flatMap (·.instructions t) = [] :=
    List.flatMap_eq_nil_iff.2 fun s hs =>
      instructions_of_isInstruction_eq_false t (Statement.isInstruction_of_isLabel (h s hs))
  rw [position, position, sourceInstructions_append, hnil, List.append_nil]

end

end FlaglessAsm
