import FlaglessAsm.Proofs.Assembly

/-!
# Arrangements of data and text

A source text mixes two kinds of statements: data words and instructions.  A label goes with the
statement that it stands in front of.  Taken apart in this way, a source text is an arrangement of
its data statements and its text statements, and programs depend on these alone: the two may be
interleaved in any way, data first, data last, or data between instructions.

What the two passes count depends on the arrangement, statement by statement.  The proof compares
two arrangements at the declaration of a label: the data words in front of a data label are the same
in both, and so are the instructions in front of a code label.

## What is here

* `dataStatements`, `textStatements`: the two parts of a source text.
* `Rearranged`: two source texts are arrangements of the same parts.
* `Rearranged.exists_declarations`: the declarations of a label in both.
* `Rearranged.get?_labelTable`: labels name the same in both.
* `Rearranged.encodable`: the conditions on both are the same, up to compares.
* `same_program_of_rearranged`: both stand for the same program.
-/

set_option autoImplicit false

namespace FlaglessAsm

/-! ## Parts of a source text -/

/-- The statements that belong to the text, or else those that belong to the data.  A label belongs
with the next statement that is no label, and to the text at the end. -/
def statementsOf (code : Bool) : List SourceStatement → List Statement
  | [] => []
  | s :: rest =>
    if isCodePlace (nextStatement (s :: rest)) = code then s.statement :: statementsOf code rest
    else statementsOf code rest

/-- The data words and the labels in front of them. -/
def dataStatements (ss : List SourceStatement) : List Statement :=
  statementsOf false ss

/-- The instructions and the labels that are not in front of data words. -/
def textStatements (ss : List SourceStatement) : List Statement :=
  statementsOf true ss

/-- Two source texts have the same data statements and the same text statements, in the same
orders. -/
structure Rearranged (ss ss' : List SourceStatement) : Prop where
  data : dataStatements ss = dataStatements ss'
  text : textStatements ss = textStatements ss'

/-- Whether a statement is an instruction, or else a data word. -/
def Statement.countsFor (code : Bool) : Statement → Bool
  | .label _ => false
  | .word _ => !code
  | .instruction .. => code

/-- The instructions among statements, or else the data words. -/
def contents (code : Bool) (ss : List SourceStatement) : List Statement :=
  (ss.map (·.statement)).filter (·.countsFor code)

section
variable {code : Bool}

theorem nextStatement_cons (s : SourceStatement) (rest : List SourceStatement) :
    nextStatement (s :: rest)
      = if s.statement.isLabel = true then nextStatement rest else some s.statement := by
  cases h : s.statement.isLabel <;> simp [nextStatement, h]

theorem isCodePlace_of_countsFor {s : SourceStatement} (h : s.statement.countsFor code = true)
    (rest : List SourceStatement) : isCodePlace (nextStatement (s :: rest)) = code := by
  rw [nextStatement_cons]
  cases hs : s.statement <;> cases code <;> rw [hs] at h <;> first | rfl | cases h

theorem countsFor_of_isCodePlace_ne {s : SourceStatement} {rest : List SourceStatement}
    (h : isCodePlace (nextStatement (s :: rest)) ≠ code) : s.statement.countsFor code = false :=
  Bool.eq_false_iff.2 fun hs => h (isCodePlace_of_countsFor hs rest)

theorem contents_cons (s : SourceStatement) (rest : List SourceStatement) :
    contents code (s :: rest) = [s.statement].filter (·.countsFor code) ++ contents code rest := by
  rw [contents, List.map_cons, ← List.singleton_append, List.filter_append, contents]

/-- The parts of a source text hold its data words and its instructions. -/
theorem filter_statementsOf (ss : List SourceStatement) :
    (statementsOf code ss).filter (·.countsFor code) = contents code ss := by
  induction ss with
  | nil => rfl
  | cons s rest ih =>
    rw [statementsOf, contents_cons]
    by_cases hs : isCodePlace (nextStatement (s :: rest)) = code
    · rw [if_pos hs, ← ih, ← List.filter_append, List.singleton_append]
    · rw [if_neg hs, ih]
      simp [countsFor_of_isCodePlace_ne hs]

/-- The statement behind labels is in the same part as they are. -/
theorem find?_statementsOf {ss : List SourceStatement}
    (h : isCodePlace (nextStatement ss) = code) :
    (statementsOf code ss).find? (!·.isLabel) = nextStatement ss := by
  induction ss with
  | nil => rfl
  | cons s rest ih =>
    rw [statementsOf, if_pos h]
    rw [nextStatement_cons] at h ⊢
    cases hs : s.statement.isLabel with
    | true =>
      rw [hs, if_pos rfl] at h
      simp [hs, ih h]
    | false => simp [hs]

/-- A statement of a part, found in the source text. -/
theorem exists_of_statementsOf_eq {ss : List SourceStatement} {before behind : List Statement}
    {s : Statement} (h : statementsOf code ss = before ++ s :: behind) :
    ∃ front line rest, ss = front ++ ⟨line, s⟩ :: rest ∧
      isCodePlace (nextStatement (⟨line, s⟩ :: rest)) = code ∧
      statementsOf code rest = behind ∧
      contents code front = before.filter (·.countsFor code) := by
  induction ss generalizing before with
  | nil => simp [statementsOf] at h
  | cons first ss ih =>
    rw [statementsOf] at h
    by_cases hfirst : isCodePlace (nextStatement (first :: ss)) = code
    · rw [if_pos hfirst] at h
      cases before with
      | nil =>
        obtain ⟨rfl, rfl⟩ := List.cons.inj h
        exact ⟨[], first.line, ss, rfl, hfirst, rfl, rfl⟩
      | cons s' before =>
        obtain ⟨rfl, htail⟩ := List.cons.inj h
        obtain ⟨front, line, rest, rfl, hplace, hbehind, hbefore⟩ := ih htail
        refine ⟨first :: front, line, rest, rfl, hplace, hbehind, ?_⟩
        rw [contents_cons, hbefore, ← List.filter_append, List.singleton_append]
    · -- A statement of the other part counts for nothing here.
      rw [if_neg hfirst] at h
      obtain ⟨front, line, rest, rfl, hplace, hbehind, hbefore⟩ := ih h
      refine ⟨first :: front, line, rest, rfl, hplace, hbehind, ?_⟩
      rw [contents_cons, hbefore]
      simp [countsFor_of_isCodePlace_ne hfirst]

end

/-- Every statement is in one of the parts. -/
theorem perm_statements (ss : List SourceStatement) :
    (ss.map (·.statement)).Perm (dataStatements ss ++ textStatements ss) := by
  induction ss with
  | nil => exact .nil
  | cons s rest ih =>
    rw [List.map_cons, dataStatements, textStatements, statementsOf, statementsOf]
    cases isCodePlace (nextStatement (s :: rest)) with
    | false => exact ih.cons s.statement
    | true => exact (ih.cons s.statement).trans List.perm_middle.symm

/-! ## What data words and instructions tell -/

theorem filterMap_eq_contents {β : Type} {f : Statement → Option β}
    (hf : ∀ s, s.countsFor false = false → f s = none) (ss : List SourceStatement) :
    ss.filterMap (f ·.statement) = (contents false ss).filterMap f := by
  rw [contents, List.filterMap_filter, List.filterMap_map]
  refine congrArg (List.filterMap · ss) (funext fun s => ?_)
  cases hs : s.statement.countsFor false with
  | false => simp [hs, hf s.statement hs]
  | true => simp [hs]

theorem dataValues_eq_contents (ss : List SourceStatement) :
    dataValues ss = (contents false ss).filterMap Statement.stores? := by
  refine filterMap_eq_contents (fun s hs => ?_) ss
  cases s with
  | word => cases hs
  | _ => rfl

theorem dataSymbols_eq_contents (ss : List SourceStatement) :
    dataSymbols ss = (contents false ss).filterMap Statement.refersTo? := by
  refine filterMap_eq_contents (fun s hs => ?_) ss
  cases s with
  | word => cases hs
  | _ => rfl

/-- Instructions do not depend on the lines that they are read from. -/
theorem flatMap_instructions_eq_contents (t : SymbolTable) (ss : List SourceStatement) :
    ss.flatMap (·.instructions t)
      = (contents true ss).flatMap fun s => SourceStatement.instructions t ⟨⟨0, ""⟩, s⟩ := by
  induction ss with
  | nil => rfl
  | cons s rest ih =>
    rw [List.flatMap_cons, ih, contents_cons, List.flatMap_append]
    refine congrArg (· ++ _) ?_
    obtain ⟨line, statement⟩ := s
    cases statement <;> simp [Statement.countsFor, SourceStatement.instructions]

/-- What a label names depends on the data words in front of it or on the instructions there. -/
theorem inFrontOf_congr {config : Config} {values values' words words' : Nat}
    {rest : List SourceStatement}
    (hdata : isCodePlace (nextStatement rest) = false → values = values')
    (hcode : isCodePlace (nextStatement rest) = true → words = words') :
    Binding.inFrontOf config values words (nextStatement rest)
      = Binding.inFrontOf config values' words' (nextStatement rest) := by
  have hlabel := @isLabel_of_nextStatement rest
  rcases hnext : nextStatement rest with _ | (_ | (_ | _) | _) <;> rw [hnext] at hdata hcode hlabel
  case none => rw [hcode rfl]; rfl
  case some.label => simp [Statement.isLabel] at hlabel
  case some.word.value => rw [hdata rfl]; rfl
  case some.word.symbol => rfl
  case some.instruction => rw [hcode rfl]; rfl

/-! ## Two arrangements -/

namespace Rearranged

variable {ss ss' : List SourceStatement} {config : Config}

theorem symm (h : Rearranged ss ss') : Rearranged ss' ss :=
  ⟨h.data.symm, h.text.symm⟩

theorem statementsOf_eq (h : Rearranged ss ss') (code : Bool) :
    statementsOf code ss = statementsOf code ss' := by
  cases code with
  | false => exact h.data
  | true => exact h.text

theorem contents_eq (h : Rearranged ss ss') (code : Bool) :
    contents code ss = contents code ss' := by
  rw [← filter_statementsOf, h.statementsOf_eq, filter_statementsOf]

theorem perm (h : Rearranged ss ss') :
    (ss.map (·.statement)).Perm (ss'.map (·.statement)) := by
  refine (perm_statements ss).trans ?_
  rw [h.data, h.text]
  exact (perm_statements ss').symm

theorem labelNames_perm (h : Rearranged ss ss') : (labelNames ss).Perm (labelNames ss') := by
  have hperm := h.perm.filterMap Statement.declares?
  rwa [List.filterMap_map, List.filterMap_map] at hperm

theorem dataValues_eq (h : Rearranged ss ss') : dataValues ss = dataValues ss' := by
  rw [dataValues_eq_contents, h.contents_eq, dataValues_eq_contents]

theorem dataSymbols_eq (h : Rearranged ss ss') : dataSymbols ss = dataSymbols ss' := by
  rw [dataSymbols_eq_contents, h.contents_eq, dataSymbols_eq_contents]

theorem expands (h : Rearranged ss ss') {t : SymbolTable} (hss : ∀ s ∈ ss, s.Expands t) :
    ∀ s ∈ ss', s.Expands t := by
  intro s hs
  obtain ⟨s₀, hs₀, heq⟩ := List.mem_map.1 (h.perm.mem_iff.2 (List.mem_map_of_mem hs))
  have hexpands := hss s₀ hs₀
  rwa [SourceStatement.Expands, heq] at hexpands

/-- **A label is declared in both arrangements**, in front of the same statement.  In front of a
data label stand the same data words, and in front of a code label the same instructions. -/
theorem exists_declarations (h : Rearranged ss ss') {name : String} (hmem : name ∈ labelNames ss) :
    ∃ front line rest front' line' rest',
      ss = front ++ ⟨line, .label name⟩ :: rest ∧ ss' = front' ++ ⟨line', .label name⟩ :: rest' ∧
      nextStatement rest = nextStatement rest' ∧
      contents (isCodePlace (nextStatement rest)) front
        = contents (isCodePlace (nextStatement rest)) front' := by
  obtain ⟨front₀, line₀, rest₀, hss₀⟩ := mem_labelNames_iff.1 hmem
  have hstatement : Statement.label name ∈ dataStatements ss ++ textStatements ss :=
    (perm_statements ss).mem_iff.1 (by rw [hss₀]; simp)
  obtain ⟨code, hcode⟩ : ∃ code, Statement.label name ∈ statementsOf code ss := by
    rcases List.mem_append.1 hstatement with hdata | htext
    · exact ⟨false, hdata⟩
    · exact ⟨true, htext⟩
  obtain ⟨before, behind, hpart⟩ := List.append_of_mem hcode
  obtain ⟨front, line, rest, hss, hplace, hbehind, hfront⟩ := exists_of_statementsOf_eq hpart
  rw [h.statementsOf_eq] at hpart
  obtain ⟨front', line', rest', hss', hplace', hbehind', hfront'⟩ := exists_of_statementsOf_eq hpart
  -- Labels do not come next themselves.
  replace hplace : isCodePlace (nextStatement rest) = code := hplace
  replace hplace' : isCodePlace (nextStatement rest') = code := hplace'
  refine ⟨front, line, rest, front', line', rest', hss, hss', ?_, ?_⟩
  · rw [← find?_statementsOf hplace, hbehind, ← hbehind', find?_statementsOf hplace']
  · rw [hplace, hfront, hfront']

/-! ## Labels -/

theorem get?_labelTableOf (h : Rearranged ss ss') (hnd : (labelNames ss).Nodup)
    {size size' : List SourceStatement → Nat}
    (hsize : ∀ front front', contents true front = contents true front' → size front = size' front')
    (name : String) :
    (labelTableOf config size ss).get? name = (labelTableOf config size' ss').get? name := by
  by_cases hmem : name ∈ labelNames ss
  · obtain ⟨front, line, rest, front', line', rest', hss, hss', hnext, hfront⟩ :=
      h.exists_declarations hmem
    rw [get?_labelTableOf_of_declared config size hnd hss,
      get?_labelTableOf_of_declared config size' (h.labelNames_perm.nodup_iff.1 hnd) hss', ← hnext]
    refine congrArg some (inFrontOf_congr (fun hdata => ?_) fun hcode => ?_)
    · rw [hdata] at hfront
      rw [dataValues_eq_contents, hfront, dataValues_eq_contents]
    · rw [hcode] at hfront
      exact hsize front front' hfront
  · rw [get?_labelTableOf_of_not_mem config size hmem,
      get?_labelTableOf_of_not_mem config size' (mt h.labelNames_perm.mem_iff.2 hmem)]

theorem isDeclared_labelTableOf_eq (h : Rearranged ss ss') {size size' : List SourceStatement → Nat}
    (name : String) :
    (labelTableOf config size ss).isDeclared name
      = (labelTableOf config size' ss').isDeclared name := by
  rw [Bool.eq_iff_iff, isDeclared_labelTableOf, isDeclared_labelTableOf, h.labelNames_perm.mem_iff]

/-- **Labels name the same in both arrangements.** -/
theorem get?_labelTable (h : Rearranged ss ss') (hnd : (labelNames ss).Nodup) (name : String) :
    (labelTable config ss).get? name = (labelTable config ss').get? name := by
  refine h.get?_labelTableOf hnd (fun front front' hfront => ?_) name
  have hsame : (labelTableOf config (fun _ => 0) ss).SameData
      (labelTableOf config (fun _ => 0) ss') :=
    SymbolTable.sameData_of_get?_eq (h.get?_labelTableOf hnd fun _ _ _ => rfl)
      h.isDeclared_labelTableOf_eq
  rw [position_congr hsame, position, position, sourceInstructions, sourceInstructions,
    flatMap_instructions_eq_contents, hfront, flatMap_instructions_eq_contents]

theorem sameData (h : Rearranged ss ss') (hnd : (labelNames ss).Nodup) :
    (labelTable config ss).SameData (labelTable config ss') :=
  SymbolTable.sameData_of_get?_eq (h.get?_labelTable hnd) h.isDeclared_labelTableOf_eq

/-! ## Programs -/

theorem sourceInstructions_eq (h : Rearranged ss ss') (hnd : (labelNames ss).Nodup) :
    sourceInstructions config (labelTable config ss) ss
      = sourceInstructions config (labelTable config ss') ss' := by
  rw [sourceInstructions_congr (h.sameData hnd), sourceInstructions, sourceInstructions,
    flatMap_instructions_eq_contents, h.contents_eq, flatMap_instructions_eq_contents]

theorem directWords?_eq (h : Rearranged ss ss') (hnd : (labelNames ss).Nodup) :
    directWords? config (labelTable config ss) config.textStart
        (sourceInstructions config (labelTable config ss) ss)
      = directWords? config (labelTable config ss') config.textStart
        (sourceInstructions config (labelTable config ss') ss') := by
  rw [h.sourceInstructions_eq hnd, directWords?_congr (h.get?_labelTable hnd)]

/-- **The conditions on a source text do not depend on its arrangement**, but for compares. -/
theorem encodable (h : Rearranged ss ss') (henc : Encodable config ss)
    (hcompared : config.strictCompare = true → Compared ss') : Encodable config ss' where
  nodup := h.labelNames_perm.nodup_iff.1 henc.nodup
  dataRoom := h.dataValues_eq ▸ henc.dataRoom
  values := h.dataValues_eq ▸ henc.values
  expands := by
    intro s hs mnemonic operands heq
    rw [← expand_congr (h.sameData henc.nodup)]
    exact h.expands henc.expands s hs mnemonic operands heq
  compared := hcompared
  textRoom := by
    rw [position, ← h.sourceInstructions_eq henc.nodup]
    exact henc.textRoom
  words := h.directWords?_eq henc.nodup ▸ henc.words

end Rearranged

/-- The words of a program are told by the numbers and the instruction words of its source text. -/
theorem Assembled.words_eq_words {config : Config} {ss ss' : List SourceStatement} {p p' : Program}
    (h : Assembled config ss p) (h' : Assembled config ss' p')
    (hvalues : dataValues ss = dataValues ss')
    (hwords : directWords? config (labelTable config ss) config.textStart
        (sourceInstructions config (labelTable config ss) ss)
      = directWords? config (labelTable config ss') config.textStart
        (sourceInstructions config (labelTable config ss') ss')) : p.words = p'.words := by
  obtain ⟨halves, words, hhalves, hdirect, hlist⟩ := h.words_eq
  obtain ⟨halves', words', hhalves', hdirect', hlist'⟩ := h'.words_eq
  obtain rfl : words = words' := Option.some_inj.1 (hdirect.symm.trans (hwords.trans hdirect'))
  rw [hvalues] at hhalves
  obtain rfl := halves_unique hhalves hhalves'
  rw [← Array.toList_inj, hlist, hlist']

/-- **The program of a source text does not depend on the arrangement of its data.**  Two
arrangements of the same data and text statements, if both can be assembled, give the same words,
the same labels and the same data boundary.  Without strict compares, one can be assembled exactly
if the other one can.  The arrangements agree on the statement that each label stands in front of,
as labels go with that statement (`Rearranged.exists_declarations`). -/
theorem same_program_of_rearranged {config : Config} {lines lines' : List SourceLine}
    {ss ss' : List SourceStatement} (hread : SourceStatement.readAll lines = .ok ss)
    (hread' : SourceStatement.readAll lines' = .ok ss')
    (hdata : dataStatements ss = dataStatements ss')
    (htext : textStatements ss = textStatements ss') :
    (∀ p p', assemble config lines = .ok p → assemble config lines' = .ok p' →
      p.words = p'.words ∧ (∀ name, p.symbols.get? name = p'.symbols.get? name) ∧
        p.dataBoundary = p'.dataBoundary) ∧
    (config.strictCompare = false →
      ((∃ p, assemble config lines = .ok p) ↔ ∃ p', assemble config lines' = .ok p')) := by
  have h : Rearranged ss ss' := ⟨hdata, htext⟩
  refine ⟨fun p p' hp hp' => ?_, fun hlax => ?_⟩
  · obtain ⟨ss₀, hss₀, hassembled⟩ := assembled_of_assemble_eq_ok hp
    obtain ⟨ss₁, hss₁, hassembled'⟩ := assembled_of_assemble_eq_ok hp'
    obtain rfl : ss = ss₀ := Except.ok.inj (hread.symm.trans hss₀)
    obtain rfl : ss' = ss₁ := Except.ok.inj (hread'.symm.trans hss₁)
    have hnd := hassembled.encodable.nodup
    refine ⟨hassembled.words_eq_words hassembled' h.dataValues_eq (h.directWords?_eq hnd), ?_, ?_⟩
    · intro name
      rw [hassembled.get?_eq, hassembled'.get?_eq, h.get?_labelTable hnd]
    · rw [hassembled.dataBoundary_eq, hassembled'.dataBoundary_eq, h.dataSymbols_eq]
  · cases hvalid : config.validate with
    | error e => simp [assemble_of_validate_eq_error hvalid]
    | ok =>
      have hlax' (ss : List SourceStatement) : config.strictCompare = true → Compared ss := by
        simp [hlax]
      rw [exists_assemble_iff hvalid, exists_assemble_iff hvalid, hread, hread']
      simp only [Except.ok.injEq, exists_eq_left']
      exact ⟨fun henc => h.encodable henc (hlax' ss'), fun henc => h.symm.encodable henc (hlax' ss)⟩

/-- The loop, with its data word in front. -/
def dataFirstSource : List SourceLine :=
  [ ⟨1, "x:"⟩, ⟨2, ".word -1"⟩, ⟨3, "loop:"⟩, ⟨4, "cmp r0, #3"⟩, ⟨5, "bge done"⟩, ⟨6, "b loop"⟩,
    ⟨7, "done:"⟩, ⟨8, "bx lr"⟩ ]

/-- The statements of the loop, with its data word in front. -/
def dataFirstStatements : List SourceStatement :=
  [ ⟨⟨1, "x:"⟩, .label "x"⟩,
    ⟨⟨2, ".word -1"⟩, .word (.value (-1))⟩,
    ⟨⟨3, "loop:"⟩, .label "loop"⟩,
    ⟨⟨4, "cmp r0, #3"⟩, .instruction ⟨"cmp", .cmp⟩ [.register .sourceZero, .immediate 3]⟩,
    ⟨⟨5, "bge done"⟩, .instruction ⟨"bge", .bge⟩ [.label "done"]⟩,
    ⟨⟨6, "b loop"⟩, .instruction ⟨"b", .b⟩ [.label "loop"]⟩,
    ⟨⟨7, "done:"⟩, .label "done"⟩,
    ⟨⟨8, "bx lr"⟩, .instruction ⟨"bx", .bx⟩ [.register .lr]⟩ ]

theorem readAll_dataFirstSource :
    SourceStatement.readAll dataFirstSource = .ok dataFirstStatements :=
  toOption_eq_some_iff.1 (by decide +kernel)

/-- The loop is the same program with its data word between its branches and in front of them. -/
theorem same_program_of_loop :
    dataStatements loopStatements = dataStatements dataFirstStatements ∧
    textStatements loopStatements = textStatements dataFirstStatements ∧
    ∃ p p', assemble loopConfig loopSource = .ok p ∧
      assemble loopConfig dataFirstSource = .ok p' ∧ p.words = p'.words ∧
      (∀ name, p.symbols.get? name = p'.symbols.get? name) ∧
      p.dataBoundary = p'.dataBoundary := by
  obtain ⟨p, hp⟩ := exists_assemble_loop
  obtain ⟨p', hp'⟩ : ∃ p', assemble loopConfig dataFirstSource = .ok p' :=
    exists_eq_ok_of_isOk (by decide +kernel)
  refine ⟨by decide, by decide, p, p', hp, hp', ?_⟩
  exact (same_program_of_rearranged readAll_loopSource readAll_dataFirstSource (by decide)
    (by decide)).1 p p' hp hp'

end FlaglessAsm
