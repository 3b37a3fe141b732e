import FlaglessAsm.Proofs.Padding

/-!
# Relocation

A program can be placed anywhere in the instruction memory.  Branches say how far they go, not where
to, so moving the first instruction moves every instruction address by the same distance and changes
no word.

Addresses are compared as integers.  Both programs have to fit below the last address, so nothing
wraps around on the way, however close to either end of the memory they stand.

## What is here

* `Address.distance`, `MovedWord`, `Binding.Moved`: how far an address is moved, and what it means
  for an instruction word and for a label to be moved along.
* `Instruction.wordAt?_of_moved`, `directWords?_of_moved`: words do not depend on where the program
  starts.
* `Assembled.moved_get?`: the labels of a relocated program.
* `same_words_of_relocated`: a relocated program.
-/

set_option autoImplicit false

namespace FlaglessAsm

/-! ## Distances -/

/-- How far one address lies behind another. -/
def Address.distance (a b : Address) : Int :=
  (b.toNat : Int) - a.toNat

/-- What a label names when the instructions are moved by a distance. -/
inductive Binding.Moved (d : Int) : Binding → Binding → Prop
  | data (address : Address) : Moved d (.data address) (.data address)
  | pointer (target : String) : Moved d (.pointer target) (.pointer target)
  | code {pc pc' : Address} (position : Nat) (h : pc.distance pc' = d) :
      Moved d (.code pc position) (.code pc' position)

/-- An instruction word with its address, and the same word at an address moved by a distance. -/
def MovedWord (d : Int) (c c' : Address × Word) : Prop :=
  c.1.distance c'.1 = d ∧ c'.2 = c.2

theorem Address.distance_add {a b : Address} {n : Nat} (ha : a.toNat + n < UInt32.size)
    (hb : b.toNat + n < UInt32.size) :
    (a + UInt32.ofNat n).distance (b + UInt32.ofNat n) = a.distance b := by
  unfold Address.distance
  rw [Address.toNat_add_ofNat ha, Address.toNat_add_ofNat hb]
  omega

theorem Instruction.displacement_of_distance_eq {target target' pc pc' : Address}
    (h : target.distance target' = pc.distance pc') :
    displacement target' pc' = displacement target pc := by
  unfold Address.distance at h
  unfold displacement
  omega

/-! ## Words -/

section
variable {t u : SymbolTable} {d : Int}
  (hmoved : ∀ name, Option.Rel (Binding.Moved d) (t.get? name) (u.get? name))
include hmoved

theorem SymbolTable.moved_code? (name : String) :
    Option.Rel (fun a b => a.distance b = d) (t.code? name) (u.code? name) := by
  have h := hmoved name
  rw [SymbolTable.code?, SymbolTable.code?]
  generalize t.get? name = binding at h
  generalize u.get? name = binding' at h
  cases h with
  | none => exact .none
  | some h =>
    cases h with
    | data => exact .none
    | pointer => exact .none
    | code position h => exact .some h

theorem Instruction.wordAt?_of_moved {pc pc' : Address} (hpc : pc.distance pc' = d)
    (i : SymbolicInstruction) : i.wordAt? u pc' = i.wordAt? t pc := by
  cases i with
  | branch condition label =>
    have h := SymbolTable.moved_code? hmoved label
    rw [Instruction.wordAt?, Instruction.wordAt?, Instruction.located?, Instruction.located?]
    generalize t.code? label = target at h
    generalize u.code? label = target' at h
    cases h with
    | none => rfl
    | some h =>
    rw [Option.map_some, Option.map_some, displacement_of_distance_eq (h.trans hpc.symm)]
  | _ => rfl

/-- **The words of a list of instructions do not depend on where it starts**, as long as its labels
move along. -/
theorem directWords?_of_moved {config : Config} {is : List SymbolicInstruction} {pc pc' : Address}
    (hpc : pc.distance pc' = d) (hroom : pc.toNat + wordCount config is < UInt32.size)
    (hroom' : pc'.toNat + wordCount config is < UInt32.size) :
    directWords? config u pc' is = directWords? config t pc is := by
  induction is generalizing pc pc' with
  | nil => rfl
  | cons i is ih =>
    rw [wordCount_cons] at hroom hroom'
    have hspan : pc.toNat + span config i < UInt32.size := by omega
    have hspan' : pc'.toNat + span config i < UInt32.size := by omega
    rw [directWords?, directWords?, Instruction.wordAt?_of_moved hmoved hpc,
      ih ((Address.distance_add hspan hspan').trans hpc)]
    · rw [Address.toNat_add_ofNat hspan]
      omega
    · rw [Address.toNat_add_ofNat hspan']
      omega

end

/-! ## Relocated programs -/

/-- A configuration with another address for the first instruction word. -/
def Config.relocated (config : Config) (start : Address) : Config :=
  { config with textStart := start }

theorem Config.sameInstructions_relocated (config : Config) (start : Address) :
    config.SameInstructions (config.relocated start) :=
  ⟨rfl, rfl, rfl⟩

theorem directWords?_relocated (config : Config) (start : Address) (t : SymbolTable) (pc : Address)
    (is : List SymbolicInstruction) :
    directWords? (config.relocated start) t pc is = directWords? config t pc is := by
  induction is generalizing pc with
  | nil => rfl
  | cons i is ih =>
    rw [directWords?, directWords?, ih]
    rfl

theorem Binding.moved_inFrontOf {config : Config} {start : Address} (values : Nat) {words : Nat}
    (hroom : config.textStart.toNat + words < UInt32.size)
    (hroom' : start.toNat + words < UInt32.size) (next : Option Statement) :
    Binding.Moved (config.textStart.distance start) (.inFrontOf config values words next)
      (.inFrontOf (config.relocated start) values words next) := by
  rcases next with _ | (_ | (_ | _) | _)
  case some.word.value => exact .data _
  case some.word.symbol => exact .pointer _
  all_goals exact .code _ (Address.distance_add hroom hroom')

/-- No word stands at the last address or behind it. -/
theorem Assembled.room_of_word? {config : Config} {ss : List SourceStatement} {p : Program}
    (h : Assembled config ss p) {k : Nat} {w : Word} (hk : p.word? k = some w) :
    config.textStart.toNat + k < UInt32.size := by
  obtain ⟨cell, hcell, -⟩ := Option.map_eq_some_iff.1 hk
  obtain ⟨hlt, -⟩ := Array.getElem?_eq_some_iff.1 hcell
  have hroom := h.encodable.textRoom
  rw [← h.position_eq, ← h.size_instructions] at hroom
  omega

section
variable {config : Config} {start : Address} {ss : List SourceStatement} {p p' : Program}
  (h : Assembled config ss p) (h' : Assembled (config.relocated start) ss p')
include h h'

theorem Assembled.sameData_relocated : p.symbols.SameData p'.symbols :=
  h.sameData_symbols (config.sameInstructions_relocated start) h'

theorem Assembled.sourceInstructions_relocated :
    sourceInstructions (config.relocated start) p'.symbols ss
      = sourceInstructions config p.symbols ss :=
  (sourceInstructions_of_sameInstructions (config.sameInstructions_relocated start)
    (h.sameData_relocated h') ss).symm

/-- **The labels of a relocated program** name the same data, and the same positions in the
instruction stream. -/
theorem Assembled.moved_get? (name : String) :
    Option.Rel (Binding.Moved (config.textStart.distance start)) (p.symbols.get? name)
      (p'.symbols.get? name) := by
  by_cases hmem : name ∈ labelNames ss
  · obtain ⟨front, line, rest, hss⟩ := mem_labelNames_iff.1 hmem
    have hposition : position config (labelTable config ss) front
        = position (config.relocated start) (labelTable (config.relocated start) ss) front := by
      rw [← h.position_eq, ← h'.position_eq, position_congr (h.sameData_relocated h')]
      rfl
    rw [h.get?_eq, h'.get?_eq, get?_labelTable_of_declared h.encodable.nodup hss,
      get?_labelTable_of_declared h'.encodable.nodup hss, ← hposition]
    refine .some (Binding.moved_inFrontOf _ (h.encodable.room_of_append hss) ?_ _)
    rw [hposition]
    exact h'.encodable.room_of_append hss
  · rw [h.get?_eq, h'.get?_eq, get?_labelTable_of_not_mem hmem, get?_labelTable_of_not_mem hmem]
    exact .none

theorem Assembled.word?_relocated (k : Nat) : p'.word? k = p.word? k := by
  have hroom := h.encodable.textRoom
  rw [← h.position_eq] at hroom
  have hroom' := h'.encodable.textRoom
  rw [← h'.position_eq, position, h.sourceInstructions_relocated h'] at hroom'
  have hwords := directWords?_of_moved (h.moved_get? h') rfl hroom hroom'
  have hinstructions := h'.instructionWords
  rw [h.sourceInstructions_relocated h', directWords?_relocated] at hinstructions
  have heq := hinstructions.symm.trans (hwords.trans h.instructionWords)
  rw [Program.word?_eq, Program.word?_eq, Option.some_inj.1 heq]

/-- The instruction words of a relocated program, with their addresses. -/
theorem Assembled.moved_instructions (k : Nat) :
    Option.Rel (MovedWord (config.textStart.distance start)) p.instructions[k]?
      p'.instructions[k]? := by
  have hsame := h.word?_relocated h' k
  rw [h.getElem?_instructions, h'.getElem?_instructions, hsame]
  cases hword : p.word? k with
  | none => exact .none
  | some word =>
    exact .some ⟨Address.distance_add (h.room_of_word? hword)
      (h'.room_of_word? (hsame.trans hword)), rfl⟩

end

/-- **Relocating a program changes no word.**  All instruction addresses, those that labels name
among them, are moved by the distance between the two starts; the words, their order, the positions
that labels name, the data and the data boundary stay the same. -/
theorem same_words_of_relocated {config : Config} (start : Address) {lines : List SourceLine}
    {p p' : Program} (h : assemble config lines = .ok p)
    (h' : assemble (config.relocated start) lines = .ok p') :
    (∀ k : Nat, Option.Rel (MovedWord (config.textStart.distance start)) p.instructions[k]?
      p'.instructions[k]?) ∧
    p.data = p'.data ∧ p.dataBoundary = p'.dataBoundary ∧
    (∀ name, p.symbols.isDeclared name = p'.symbols.isDeclared name) ∧
    ∀ name, Option.Rel (Binding.Moved (config.textStart.distance start)) (p.symbols.get? name)
      (p'.symbols.get? name) := by
  obtain ⟨ss, hread, hp⟩ := assembled_of_assemble_eq_ok h
  obtain ⟨ss', hread', hp'⟩ := assembled_of_assemble_eq_ok h'
  obtain rfl : ss = ss' := Except.ok.inj (hread.symm.trans hread')
  refine ⟨hp.moved_instructions hp', ?_, ?_, ?_, hp.moved_get? hp'⟩
  · exact hp.data_eq (config.sameInstructions_relocated start) hp'
  · rw [hp.dataBoundary_eq, hp'.dataBoundary_eq]
  · exact (hp.sameData_relocated hp').isDeclared

/-- The loop, moved up to the end of the memory: its last word stands just below the last
address. -/
theorem same_words_of_loop : ∃ p p', assemble loopConfig loopSource = .ok p ∧
    assemble (loopConfig.relocated 0xFFFFFFF0) loopSource = .ok p' ∧
    (∀ k : Nat, Option.Rel (MovedWord 0xFFFFFFE0) p.instructions[k]? p'.instructions[k]?) ∧
    p.data = p'.data ∧ p.symbols.get? "done" = some (.code 30 14) ∧
    p'.symbols.get? "done" = some (.code 0xFFFFFFFE 14) := by
  have hdone : ((assemble loopConfig loopSource).toOption.bind (·.symbols.get? "done"))
      = some (.code 30 14) := by
    decide +kernel
  obtain ⟨p, hp, hdone⟩ := Option.bind_eq_some_iff.1 hdone
  rw [toOption_eq_some_iff] at hp
  obtain ⟨p', hp'⟩ : ∃ p', assemble (loopConfig.relocated 0xFFFFFFF0) loopSource = .ok p' :=
    exists_eq_ok_of_isOk (by decide +kernel)
  obtain ⟨hwords, hdata, -, -, hlabels⟩ := same_words_of_relocated 0xFFFFFFF0 hp hp'
  refine ⟨p, p', hp, hp', hwords, hdata, hdone, ?_⟩
  have hmoved := hlabels "done"
  rw [hdone] at hmoved
  generalize p'.symbols.get? "done" = binding at hmoved
  cases hmoved with
  | some hmoved =>
    cases hmoved with
    | @code _ pc' _ hdistance =>
      have hpc : pc' = 0xFFFFFFFE := by
        change (pc'.toNat : Int) - 30 = 0xFFFFFFF0 - 16 at hdistance
        rw [← UInt32.toNat_inj]
        change pc'.toNat = 0xFFFFFFFE
        omega
      rw [hpc]

end FlaglessAsm
