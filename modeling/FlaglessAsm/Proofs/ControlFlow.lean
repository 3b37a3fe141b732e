import FlaglessAsm.Image.ControlFlow
import FlaglessAsm.Proofs.Loading
import FlaglessAsm.Proofs.WellFormed

/-!
# Control flow, before and after

A source text says where its branches go, by label.  The image of the assembled program holds words
only, and its control transfers are read off these words.  Nothing is lost or added on the way: no
other word decodes as a branch, and displacements reach the places of the labels they came from.

## What is here

* `Instruction.edge?`: the control transfer of an instruction of a source text.
* `edgeAt_of_wordAt?_eq_some`, `filterMap_edgeAt_instructionCells`: words and instructions have the
  same control transfers.
* `Image.mem_labels_iff`: the addresses that have names.
* `control_flow_of_assemble`: the image of a program has the control transfers of its source text.
-/

set_option autoImplicit false

namespace FlaglessAsm

open Std

/-! ## Control transfers of instructions -/

/-- The control transfer of an instruction of a source text at an address. -/
def Instruction.edge? (t : SymbolTable) (pc : Address) : SymbolicInstruction → Option Edge
  | .branch .always label => some ⟨pc, t.code? label, .branch⟩
  | .branch _ label => some ⟨pc, t.code? label, .conditionalBranch⟩
  | .exchange _ => some ⟨pc, none, .indirect⟩
  | _ => none

theorem edgeAt_nopWord (pc : Address) : edgeAt pc nopWord = none := by
  have hdecode : decode nopWord = some .nop := rfl
  rw [edgeAt, hdecode]

/-- The word of a branch goes where its label is. -/
theorem edgeAt_of_encode_branch {condition : Condition} {target pc : Address} {w : Word}
    (h : (Instruction.branch condition (Instruction.displacement target pc)).encode = .ok w) :
    edgeAt pc w = some ⟨pc, some target,
      if condition.isConditional then .conditionalBranch else .branch⟩ := by
  obtain ⟨hrange, hw⟩ := Instruction.encode_eq_ok_iff.1 h
  rw [edgeAt, (decode_branch hrange hw).2]
  simp only
  rw [Instruction.destination_displacement, Word.ofInt?_eq_some_iff.2 rfl]

/-- **A word has the control transfer of its instruction.** -/
theorem edgeAt_of_wordAt?_eq_some {t : SymbolTable} {pc : Address} {i : SymbolicInstruction}
    {w : Word} (h : i.wordAt? t pc = some w) : edgeAt pc w = i.edge? t pc := by
  rw [Instruction.wordAt?, Option.bind_eq_some_iff] at h
  obtain ⟨located, hlocated, hw⟩ := h
  rw [toOption_eq_some_iff] at hw
  cases i with
  | branch condition label =>
    obtain ⟨target, hcode, rfl⟩ := Option.map_eq_some_iff.1 hlocated
    rw [edgeAt_of_encode_branch hw]
    cases condition <;> simp [Instruction.edge?, hcode, Condition.isConditional]
  | exchange rm =>
    obtain ⟨⟩ := hlocated
    rw [edgeAt, (decode_exchange (Instruction.encode_eq_ok_iff.1 hw).2).2]
    rfl
  | _ =>
    obtain ⟨⟩ := hlocated
    rw [edgeAt, decode_of_encode_eq_ok hw]
    by_cases hnop : w = nopWord
    · simp [hnop, Instruction.edge?]
    · simp [hnop, Instruction.edge?]

section
variable {config : Config} {t : SymbolTable}

theorem filterMap_edgeAt_nops (start : Address) (n : Nat) :
    (instructionCells start (List.replicate n nopWord)).filterMap
      (fun c => edgeAt c.address c.word) = [] := by
  induction n generalizing start with
  | zero => rfl
  | succ n ih =>
    rw [List.replicate_succ, instructionCells_cons, List.filterMap_cons]
    simp only [edgeAt_nopWord, ih]

/-- The words of a list of instructions have their control transfers, in order. -/
theorem filterMap_edgeAt_instructionCells {pc : Address} {is : List SymbolicInstruction}
    {words : List Word} (h : directWords? config t pc is = some words) :
    (instructionCells pc words).filterMap (fun c => edgeAt c.address c.word)
      = (placed config pc is).filterMap fun p => p.2.edge? t p.1 := by
  induction is generalizing pc words with
  | nil =>
    obtain ⟨⟩ := h
    rfl
  | cons i is ih =>
    rw [directWords?, Option.bind_eq_some_iff] at h
    obtain ⟨word, hword, h⟩ := h
    obtain ⟨rest, hrest, rfl⟩ := Option.map_eq_some_iff.1 h
    rw [instructionCells_append, length_padded, List.filterMap_append, ih hrest, padded,
      instructionCells_cons, placed, List.filterMap_cons, List.filterMap_cons,
      filterMap_edgeAt_nops]
    simp only [edgeAt_of_wordAt?_eq_some hword]
    cases i.edge? t pc <;> rfl

theorem exists_edge?_target_iff {a pc : Address} {i : SymbolicInstruction} :
    (∃ e, i.edge? t pc = some e ∧ e.target = some a) ↔
      ∃ condition label, i = .branch condition label ∧ t.code? label = some a := by
  cases i with
  | branch condition label => cases condition <;> simp [Instruction.edge?, and_assoc]
  | _ => simp [Instruction.edge?]

end

theorem origin_of_edgeAt_eq_some {pc : Address} {w : Word} {e : Edge} (h : edgeAt pc w = some e) :
    e.origin = pc := by
  rw [edgeAt] at h
  split at h
  · obtain ⟨⟩ := h
    rfl
  · obtain ⟨⟩ := h
    rfl
  · simp at h

/-! ## Control transfers of images -/

namespace Image

variable (img : Image)

/-- The control transfers of an image stand at increasing addresses. -/
theorem pairwise_origin_edges : (img.edges.map Edge.origin).Pairwise (· < ·) := by
  rw [edges, List.pairwise_map, List.pairwise_filterMap]
  refine TreeMap.ordered_keys_toList.imp fun hlt e he f hf => ?_
  rw [origin_of_edgeAt_eq_some he, origin_of_edgeAt_eq_some hf]
  exact compare_eq_lt.1 hlt

theorem mem_foldl_insertIfNew {names : TreeMap Address String} {targets : List Address}
    {a : Address} :
    a ∈ targets.foldl (fun names target => names.insertIfNew target (targetName target)) names ↔
      a ∈ names ∨ a ∈ targets := by
  induction targets generalizing names with
  | nil => simp
  | cons target targets ih =>
    rw [List.foldl_cons, ih, TreeMap.mem_insertIfNew, LawfulEqCmp.compare_eq_iff_eq, List.mem_cons,
      eq_comm, or_comm (a := a = target), or_assoc]

/-- The addresses with names are the lowest instruction address and the targets of edges. -/
theorem mem_labels_iff {a : Address} :
    a ∈ img.labels ↔ img.instructions.minKey? = some a ∨ ∃ e ∈ img.edges, e.target = some a := by
  rw [labels, mem_foldl_insertIfNew, List.mem_filterMap]
  refine or_congr_left ?_
  rw [entryLabel]
  cases img.instructions.minKey? with
  | none => simp
  | some entry => simp [TreeMap.mem_insert]

end Image

section
variable {config : Config} {ss : List SourceStatement} {p : Program} {img : Image}

theorem Assembled.minKey?_instructions (h : Assembled config ss p) (hsize : p.instructions.size ≠ 0)
    (himg : img.instructions.toList = p.instructions.toList) :
    img.instructions.minKey? = some config.textStart := by
  obtain ⟨halves, words, -, -, hlist⟩ := h.words_eq
  have hinstructions := Program.toList_instructions hlist
  rw [TreeMap.minKey?_eq_head?_keys, ← TreeMap.map_fst_toList_eq_keys, himg, hinstructions]
  cases words with
  | nil =>
    rw [← Array.length_toList, hinstructions] at hsize
    exact absurd rfl hsize
  | cons word words =>
    rw [instructionCells_cons]
    rfl

theorem Assembled.edges_eq (h : Assembled config ss p)
    (himg : img.instructions.toList = p.instructions.toList) :
    img.edges = (placed config config.textStart
      (sourceInstructions config p.symbols ss)).filterMap fun q => q.2.edge? p.symbols q.1 := by
  obtain ⟨halves, words, -, hwords, hlist⟩ := h.words_eq
  rw [Image.edges, himg, Program.toList_instructions hlist, List.filterMap_map,
    ← filterMap_edgeAt_instructionCells (h.directWords?_eq.trans hwords)]
  rfl

/-- Every branch goes to a code label. -/
theorem Assembled.exists_code? (h : Assembled config ss p) {pc : Address} {condition : Condition}
    {label : String}
    (hmem : (pc, .branch condition label)
      ∈ placed config config.textStart (sourceInstructions config p.symbols ss)) :
    ∃ target, p.symbols.code? label = some target := by
  have hwords := (directWords?_isSome_iff config p.symbols _ _).1
    (Option.isSome_iff_exists.2 ⟨_, h.instructionWords⟩)
  obtain ⟨target, hcode, -⟩ := isSome_wordAt?_branch_iff.1 (hwords _ hmem)
  exact ⟨target, hcode⟩

end

/-! ## From source text to image -/

/-- **The control flow of a source text is found in the image of its program.**  Loading the program
succeeds; its control transfers are those of the branches and jumps of the source text, by
increasing address; and the addresses with names are the first one and those that branches go to. -/
theorem control_flow_of_assemble {config : Config} {lines : List SourceLine} {p : Program}
    (h : assemble config lines = .ok p) (strict : Bool) :
    ∃ (statements : List SourceStatement) (img : Image),
      SourceStatement.readAll lines = .ok statements ∧
      (Image.load p.words.toList).run { strict } = .ok () img ∧
      img.edges = ((placed config config.textStart
        (sourceInstructions config p.symbols statements)).filterMap
          fun (pc, i) => i.edge? p.symbols pc) ∧
      (img.edges.map Edge.origin).Pairwise (· < ·) ∧
      (∀ pc condition label,
        (pc, .branch condition label)
          ∈ placed config config.textStart (sourceInstructions config p.symbols statements) →
        ∃ target, p.symbols.code? label = some target) ∧
      (p.instructions.size ≠ 0 → ∀ a, a ∈ img.labels ↔ a = config.textStart ∨
        ∃ pc condition label,
          (pc, .branch condition label)
            ∈ placed config config.textStart (sourceInstructions config p.symbols statements) ∧
          p.symbols.code? label = some a) := by
  obtain ⟨ss, hread, hp⟩ := assembled_of_assemble_eq_ok h
  obtain ⟨img, hload, himg⟩ := hp.exists_load strict
  have hedges := hp.edges_eq himg
  refine ⟨ss, img, hread, hload, hedges, img.pairwise_origin_edges,
    fun _ _ _ hmem => hp.exists_code? hmem, fun hsize a => ?_⟩
  rw [img.mem_labels_iff, hp.minKey?_instructions hsize himg, Option.some_inj, eq_comm, hedges]
  refine or_congr_right ?_
  constructor
  · rintro ⟨e, he, htarget⟩
    obtain ⟨⟨pc, i⟩, hmem, he⟩ := List.mem_filterMap.1 he
    obtain ⟨condition, label, rfl, hcode⟩ := exists_edge?_target_iff.1 ⟨e, he, htarget⟩
    exact ⟨pc, condition, label, hmem, hcode⟩
  · rintro ⟨pc, condition, label, hmem, hcode⟩
    obtain ⟨e, he, htarget⟩ := exists_edge?_target_iff.2 ⟨condition, label, rfl, hcode⟩
    exact ⟨e, List.mem_filterMap.2 ⟨_, hmem, he⟩, htarget⟩

/-- The loop has a way out, a way back and a jump to a register. -/
theorem control_flow_of_loop : ∃ p img, assemble loopConfig loopSource = .ok p ∧
    (Image.load p.words.toList).run { strict := true } = .ok () img ∧
    img.edges = [ ⟨28, p.symbols.code? "done", .conditionalBranch⟩,
      ⟨29, p.symbols.code? "loop", .branch⟩, ⟨30, none, .indirect⟩ ] := by
  obtain ⟨p, hp⟩ := exists_assemble_loop
  obtain ⟨ss, img, hread, hload, hedges, -⟩ := control_flow_of_assemble hp true
  obtain rfl : loopStatements = ss := Except.ok.inj (readAll_loopSource.symm.trans hread)
  exact ⟨p, img, hp, hload, hedges.trans rfl⟩

end FlaglessAsm
