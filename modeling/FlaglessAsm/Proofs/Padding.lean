import FlaglessAsm.Proofs.Loading
import FlaglessAsm.Proofs.Stream

/-!
# Padding

How a program is padded decides where its instructions end up, and with them all code labels and the
displacements of all branches.  What the instructions are does not depend on it: two paddings of a
source text have the same instructions, one by one, and a branch goes to the same one of them.

The instructions of a list are numbered from zero.  The number behind the last one stands for the
end of the program, where a label may stand as well.

## What is here

* `instructionStart`: the address of an instruction, by its number.
* `Config.SameInstructions`: two configurations give the same instructions and the same data.
* `Assembled.hasWord`: the words of numbered instructions.
* `Assembled.exists_target`: a label names the same instruction in both programs.
* `same_instructions_of_padding`: padding does not change the program.
-/

set_option autoImplicit false

namespace FlaglessAsm

/-! ## Numbered instructions -/

/-- The address of the first word of instruction `k`, or the one behind the last word. -/
def instructionStart (config : Config) (is : List SymbolicInstruction) (k : Nat) : Address :=
  config.textStart + UInt32.ofNat (wordCount config (is.take k))

/-- A program has the word of instruction `k` behind the words of those in front of it, and nothing
but no-ops behind it up to the next instruction. -/
def Program.HasWord (config : Config) (p : Program) (is : List SymbolicInstruction) (k : Nat)
    (w : Word) : Prop :=
  p.instructions[wordCount config (is.take k)]? = some (instructionStart config is k, w) ∧
  ∀ n, wordCount config (is.take k) < n → n < wordCount config (is.take (k + 1)) →
    p.word? n = some nopWord

section
variable {config : Config} {ss : List SourceStatement} {p : Program}

/-- **Every instruction has its word.** -/
theorem Assembled.hasWord (h : Assembled config ss p) {is : List SymbolicInstruction}
    (his : sourceInstructions config p.symbols ss = is) {k : Nat} {i : SymbolicInstruction}
    (hk : is[k]? = some i) :
    ∃ w, i.wordAt? p.symbols (instructionStart config is k) = some w ∧ p.HasWord config is k w := by
  obtain ⟨hlt, rfl⟩ := List.getElem?_eq_some_iff.1 hk
  have hsplit : sourceInstructions config p.symbols ss
      = is.take k ++ is[k] :: ([] ++ is.drop (k + 1)) := by
    rw [his, List.nil_append, ← List.drop_eq_getElem_cons hlt, List.take_append_drop]
  obtain ⟨w, hw, hword⟩ := h.word?_of_eq_append hsplit
  refine ⟨w, hw, ?_, fun n hn hn' => ?_⟩
  · rw [h.getElem?_instructions, hword]
    rfl
  · rw [← List.take_append_getElem hlt] at hn'
    obtain ⟨v, hv, hnop | ⟨j, hj, -⟩⟩ := h.word?_between hsplit hn hn'
    · rw [hv, hnop]
    · simp at hj

/-- A code label names the number of the instruction behind it. -/
theorem Assembled.eq_instructionStart_of_code? (h : Assembled config ss p) {label : String}
    {target : Address} (hcode : p.symbols.code? label = some target)
    {front rest : List SourceStatement} {line : SourceLine}
    (hss : ss = front ++ ⟨line, .label label⟩ :: rest) :
    target = instructionStart config (sourceInstructions config p.symbols ss)
      (sourceInstructions config p.symbols front).length := by
  obtain ⟨k, hget⟩ := SymbolTable.code?_eq_some_iff.1 hcode
  obtain ⟨front', line', rest', hss', rfl, rfl⟩ := h.exists_of_get?_eq_code hget
  obtain ⟨rfl, -⟩ := declaration_unique h.encodable.nodup hss hss'
  rw [instructionStart, hss, sourceInstructions_append, List.take_left, position]

end

/-! ## Two configurations -/

/-- Two configurations place the same data at the same addresses and give the same instructions,
though perhaps at other addresses. -/
structure Config.SameInstructions (config config' : Config) : Prop where
  dataStart : config.dataStart = config'.dataStart
  prologue : config.prologue = config'.prologue
  workspaceBase : config.workspaceBase = config'.workspaceBase

section
variable {config config' : Config} {ss : List SourceStatement} {p p' : Program}

theorem startInstructions_congr (hc : config.SameInstructions config') :
    startInstructions config = startInstructions config' := by
  rw [startInstructions, startInstructions, hc.prologue, Session.prologue, Session.prologue,
    hc.workspaceBase]

theorem sourceInstructions_of_sameInstructions (hc : config.SameInstructions config')
    {t u : SymbolTable} (hsame : t.SameData u) (ss : List SourceStatement) :
    sourceInstructions config t ss = sourceInstructions config' u ss := by
  rw [sourceInstructions_congr hsame, sourceInstructions, sourceInstructions,
    startInstructions_congr hc]

theorem Assembled.sameData_symbols (hc : config.SameInstructions config')
    (h : Assembled config ss p) (h' : Assembled config' ss p') :
    p.symbols.SameData p'.symbols := by
  have hsame : (labelTable config ss).SameData (labelTable config' ss) :=
    sameData_labelTableOf config _ h.encodable.nodup hc.dataStart _
  exact h.sameData.trans (hsame.trans h'.sameData.symm)

theorem Assembled.data_eq (hc : config.SameInstructions config') (h : Assembled config ss p)
    (h' : Assembled config' ss p') : p.data = p'.data := by
  obtain ⟨halves, words, hhalves, -, hlist⟩ := h.words_eq
  obtain ⟨halves', words', hhalves', -, hlist'⟩ := h'.words_eq
  obtain rfl := halves_unique hhalves hhalves'
  rw [← Array.toList_inj, Program.toList_data hlist, Program.toList_data hlist', hc.dataStart]

/-- **A code label names the same instruction in both programs.** -/
theorem Assembled.exists_target (hc : config.SameInstructions config') (h : Assembled config ss p)
    (h' : Assembled config' ss p') {is : List SymbolicInstruction}
    (his : sourceInstructions config p.symbols ss = is)
    (his' : sourceInstructions config' p'.symbols ss = is) {label : String}
    {target target' : Address} (hcode : p.symbols.code? label = some target)
    (hcode' : p'.symbols.code? label = some target') :
    ∃ j ≤ is.length, target = instructionStart config is j ∧
      target' = instructionStart config' is j := by
  obtain ⟨k, hget⟩ := SymbolTable.code?_eq_some_iff.1 hcode
  obtain ⟨front, line, rest, hss, -⟩ := h.exists_of_get?_eq_code hget
  have hfront : sourceInstructions config p.symbols front
      = sourceInstructions config' p'.symbols front :=
    sourceInstructions_of_sameInstructions hc (h.sameData_symbols hc h') front
  refine ⟨(sourceInstructions config p.symbols front).length, ?_, ?_, ?_⟩
  · rw [← his, hss, sourceInstructions_append, List.length_append]
    exact Nat.le_add_right _ _
  · rw [← his]
    exact h.eq_instructionStart_of_code? hcode hss
  · rw [← his', hfront]
    exact h'.eq_instructionStart_of_code? hcode' hss

end

/-! ## Padding -/

/-- A configuration with another padding. -/
def Config.repadded (config : Config) (pad : Word) (policy : PadPolicy) : Config :=
  { config with hazardPad := pad, padPolicy := policy }

/-- **Padding does not change the program.**  Two paddings of a source text have the same data, the
same data labels, pointer labels and data boundary.  They have the same instructions one by one, and
the same words for them, but for branches: a branch goes to the same instruction in both, or to the
end of both programs. -/
theorem same_instructions_of_padding {config : Config} (pad : Word) (policy : PadPolicy)
    {lines : List SourceLine} {p p' : Program} (h : assemble config lines = .ok p)
    (h' : assemble (config.repadded pad policy) lines = .ok p') :
    p.data = p'.data ∧ (∀ name, p.symbols.data? name = p'.symbols.data? name) ∧
    (∀ name, p.symbols.pointer? name = p'.symbols.pointer? name) ∧
    p.dataBoundary = p'.dataBoundary ∧
    ∃ statements is, SourceStatement.readAll lines = .ok statements ∧
      sourceInstructions config p.symbols statements = is ∧
      sourceInstructions (config.repadded pad policy) p'.symbols statements = is ∧
      p.instructions.size = wordCount config is ∧
      p'.instructions.size = wordCount (config.repadded pad policy) is ∧
      ∀ k i, is[k]? = some i → ∃ w w', p.HasWord config is k w ∧
        p'.HasWord (config.repadded pad policy) is k w' ∧
        (i.isBranch = false → w = w') ∧
        ∀ condition label, i = .branch condition label → ∃ j ≤ is.length, ∃ d d',
          decode w = some (.branch condition d) ∧ decode w' = some (.branch condition d') ∧
          Instruction.destination (instructionStart config is k) d
            = (instructionStart config is j).toNat ∧
          Instruction.destination (instructionStart (config.repadded pad policy) is k) d'
            = (instructionStart (config.repadded pad policy) is j).toNat := by
  obtain ⟨ss, hread, hp⟩ := assembled_of_assemble_eq_ok h
  obtain ⟨ss', hread', hp'⟩ := assembled_of_assemble_eq_ok h'
  obtain rfl : ss = ss' := Except.ok.inj (hread.symm.trans hread')
  have hc : config.SameInstructions (config.repadded pad policy) := ⟨rfl, rfl, rfl⟩
  have hsame := hp.sameData_symbols hc hp'
  have his := sourceInstructions_of_sameInstructions hc hsame ss
  refine ⟨hp.data_eq hc hp', hsame.data?, hsame.pointer?,
    hp.dataBoundary_eq.trans hp'.dataBoundary_eq.symm, ss, _, hread, rfl, his.symm,
    hp.size_instructions, ?_, ?_⟩
  · rw [his]
    exact hp'.size_instructions
  · intro k i hk
    obtain ⟨w, hw, hword⟩ := hp.hasWord rfl hk
    obtain ⟨w', hw', hword'⟩ := hp'.hasWord his.symm hk
    refine ⟨w, w', hword, hword', fun hbranch => ?_, ?_⟩
    · rw [wordAt?_eq_of_isBranch_eq_false hbranch, hw', Option.some_inj] at hw
      exact hw.symm
    · rintro condition label rfl
      obtain ⟨target, hcode, hdecode⟩ := decode_of_wordAt?_branch hw
      obtain ⟨target', hcode', hdecode'⟩ := decode_of_wordAt?_branch hw'
      obtain ⟨j, hj, rfl, rfl⟩ := hp.exists_target hc hp' rfl his.symm hcode hcode'
      exact ⟨j, hj, _, _, hdecode, hdecode', Instruction.destination_displacement _ _,
        Instruction.destination_displacement _ _⟩

/-- The loop with three no-ops behind every instruction.  Its exit is instruction six. -/
theorem same_instructions_of_loop : ∃ p p', assemble loopConfig loopSource = .ok p ∧
    assemble (loopConfig.repadded 3 .all) loopSource = .ok p' ∧ p.data = p'.data ∧
    ∃ is w w' j d d', p.instructions.size = wordCount loopConfig is ∧
      p'.instructions.size = wordCount (loopConfig.repadded 3 .all) is ∧
      p.HasWord loopConfig is 6 w ∧ p'.HasWord (loopConfig.repadded 3 .all) is 6 w' ∧
      j ≤ is.length ∧ decode w = some (.branch (.ifZero .lessThan) d) ∧
      decode w' = some (.branch (.ifZero .lessThan) d') ∧
      Instruction.destination (instructionStart loopConfig is 6) d
        = (instructionStart loopConfig is j).toNat ∧
      Instruction.destination (instructionStart (loopConfig.repadded 3 .all) is 6) d'
        = (instructionStart (loopConfig.repadded 3 .all) is j).toNat := by
  obtain ⟨p, hp⟩ := exists_assemble_loop
  obtain ⟨p', hp'⟩ : ∃ p', assemble (loopConfig.repadded 3 .all) loopSource = .ok p' :=
    exists_eq_ok_of_isOk (by decide +kernel)
  obtain ⟨hdata, -, -, -, ss, is, hread, his, -, hsize, hsize', hwords⟩ :=
    same_instructions_of_padding 3 .all hp hp'
  obtain rfl : loopStatements = ss := Except.ok.inj (readAll_loopSource.symm.trans hread)
  subst his
  obtain ⟨w, w', hw, hw', -, hbranch⟩ := hwords 6 (.branch (.ifZero .lessThan) "done") rfl
  obtain ⟨j, hj, d, d', hd, hd', htarget, htarget'⟩ := hbranch _ _ rfl
  exact ⟨p, p', hp, hp', hdata, _, w, w', j, d, d', hsize, hsize', hw, hw', hj, hd, hd', htarget,
    htarget'⟩

end FlaglessAsm
