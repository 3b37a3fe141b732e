import FlaglessAsm.Proofs.Placement

/-!
# The program of a source text

What the assembler makes of a source text, as a whole.  The session that has placed all statements
knows all labels, so patching its deferred branches gives the words of a direct encoding.

## What is here

* `Session.feed_eq_ok_iff`, `assemble_eq_ok_iff`: the parts of an assembly.
* `Assembled`: a program is the one that a source text stands for.
* `assembled_of_assemble_eq_ok`, `exists_assemble_iff`: the assembler returns such a program, and
  returns one exactly if the source text is `Encodable`.
* `direct_encoding_of_assemble`: the words of the program, encoded one by one with its labels.
* `labels_bound_of_assemble`: the labels of the program, and the places they name.
-/

set_option autoImplicit false

namespace FlaglessAsm

/-! ## The parts of an assembly -/

namespace Session

/-- A session in which nothing has been written. -/
def fresh (config : Config) : Session :=
  { config, pc := config.textStart, dataAddress := config.dataStart }

theorem feed_eq (lines : List SourceLine) :
    feed lines = (do
      let statements ← lift (SourceStatement.readAll lines)
      let config := (← get).config
      let symbols ← lift (SymbolTable.ofStatements statements config.dataStart)
      modify fun s => { s with symbols }
      emitAll prologueLine (startInstructions config)
      placeAll 0 statements) := by
  have hstart (config : Config) (next : Step Unit) :
      (if config.prologue then emitAll prologueLine (prologue config) >>= fun _ => next else next)
        = emitAll prologueLine (startInstructions config) >>= fun _ => next := by
    rw [startInstructions]
    split <;> rfl
  simp only [← hstart]
  rfl

theorem feed_eq_ok_iff {lines : List SourceLine} {s u : Session} :
    feed lines s = .ok () u ↔ ∃ statements symbols v,
      SourceStatement.readAll lines = .ok statements ∧
      SymbolTable.ofStatements statements s.config.dataStart = .ok symbols ∧
      emitAll prologueLine (startInstructions s.config) { s with symbols } = .ok () v ∧
      placeAll 0 statements v = .ok () u := by
  rw [feed_eq, bind_eq_ok_iff]
  constructor
  · rintro ⟨statements, _, hlift, hrest⟩
    obtain ⟨hread, rfl⟩ := lift_eq_ok_iff.1 hlift
    obtain ⟨_, _, ⟨⟩, hrest⟩ := bind_eq_ok_iff.1 hrest
    obtain ⟨symbols, _, hlift, hrest⟩ := bind_eq_ok_iff.1 hrest
    obtain ⟨hsymbols, rfl⟩ := lift_eq_ok_iff.1 hlift
    obtain ⟨_, _, ⟨⟩, hrest⟩ := bind_eq_ok_iff.1 hrest
    obtain ⟨_, v, hemit, hplace⟩ := bind_eq_ok_iff.1 hrest
    exact ⟨statements, symbols, v, hread, hsymbols, hemit, hplace⟩
  · rintro ⟨statements, symbols, v, hread, hsymbols, hemit, hplace⟩
    exact ⟨statements, s, lift_eq_ok_iff.2 ⟨hread, rfl⟩, bind_eq_ok_iff.2 ⟨s, s, rfl,
      bind_eq_ok_iff.2 ⟨symbols, s, lift_eq_ok_iff.2 ⟨hsymbols, rfl⟩, bind_eq_ok_iff.2
        ⟨(), _, rfl, bind_eq_ok_iff.2 ⟨(), v, hemit, hplace⟩⟩⟩⟩⟩

theorem build_eq_ok_iff {lines : List SourceLine} {s u : Session} :
    build lines s = .ok () u ↔ ∃ v n, feed lines s = .ok () v ∧ resolve v = .ok n u := by
  rw [build, bind_eq_ok_iff]
  constructor
  · rintro ⟨_, v, hfeed, hrest⟩
    obtain ⟨n, _, hresolve, ⟨⟩⟩ := bind_eq_ok_iff.1 hrest
    exact ⟨v, n, hfeed, hresolve⟩
  · rintro ⟨v, n, hfeed, hresolve⟩
    exact ⟨(), v, hfeed, bind_eq_ok_iff.2 ⟨n, u, hresolve, rfl⟩⟩

end Session

section
variable {config : Config} {lines : List SourceLine} {u : Session}

theorem assemble_of_validate_eq_error {e : AsmError} (h : config.validate = .error e) :
    assemble config lines = .error e := by
  rw [assemble, Session.start, h]

theorem assemble_of_build_eq_ok (hvalidate : config.validate = .ok ())
    (h : Session.build lines (.fresh config) = .ok () u) :
    assemble config lines = .ok u.program := by
  rw [Session.fresh] at h
  rw [assemble, Session.start, hvalidate]
  simp only [EStateM.run, h]

theorem assemble_of_build_eq_error {e : AsmError} (hvalidate : config.validate = .ok ())
    (h : Session.build lines (.fresh config) = .error e u) :
    assemble config lines = .error e := by
  rw [Session.fresh] at h
  rw [assemble, Session.start, hvalidate]
  simp only [EStateM.run, h]

theorem assemble_eq_ok_iff {p : Program} :
    assemble config lines = .ok p ↔ config.validate = .ok () ∧
      ∃ u, Session.build lines (.fresh config) = .ok () u ∧ p = u.program := by
  cases hvalidate : config.validate with
  | error => simp [assemble_of_validate_eq_error hvalidate]
  | ok =>
    cases hbuild : Session.build lines (.fresh config) with
    | error => simp [assemble_of_build_eq_error hvalidate hbuild]
    | ok => simp [assemble_of_build_eq_ok hvalidate hbuild, eq_comm]

end

/-! ## Feeding a source text -/

section
variable {config : Config} {ss : List SourceStatement} {lines : List SourceLine} {u v : Session}

theorem drafted_fresh (t symbols : SymbolTable) :
    Drafted config t [] { Session.fresh config with symbols } where
  filled := ⟨rfl, (UInt32.add_zero _).symm, config.textStart.toNat_lt_size, rfl⟩
  position_lt b hb := by simp [Session.fresh] at hb
  patched := rfl

/-- The labels that the first pass has bound are final. -/
theorem boundBelow_of_ofStatements_eq_ok {symbols : SymbolTable}
    (h : SymbolTable.ofStatements ss config.dataStart = .ok symbols) :
    BoundBelow config ss 0 symbols :=
  (collected_of_ofStatements_eq_ok h).boundBelow
    ((SymbolTable.exists_ofStatements_iff ss config.dataStart).1 ⟨symbols, h⟩).1

/-- A session in front of the first statement. -/
theorem reached_of_emitAll_eq_ok {symbols : SymbolTable}
    (hsymbols : SymbolTable.ofStatements ss config.dataStart = .ok symbols) {line : SourceLine}
    (hemit : Session.emitAll line (startInstructions config)
      { Session.fresh config with symbols } = .ok () v) :
    Reached config ss [] 0 v := by
  have hbound := boundBelow_of_ofStatements_eq_ok hsymbols
  obtain ⟨hdrafted, hsame⟩ := (drafted_fresh (labelTable config ss) symbols).emitAll
    (fun _ _ => hbound.get?_labelTable) hemit
  exact
    { drafted := by simpa [sourceInstructions] using hdrafted
      symbols := by
        rw [hsame]
        exact hbound
      data := ⟨[], rfl, by rw [hsame]; rfl⟩
      dataAddress_eq := by
        rw [hsame]
        exact (UInt32.add_zero _).symm
      afterCompare := by
        rw [hsame]
        simp [Session.fresh, afterCompare_nil]
      dataBoundary := by
        rw [hsame]
        rfl
      expands := by simp
      compared := fun _ => compared_nil }

theorem reached_of_feed_eq_ok (h : Session.feed lines (.fresh config) = .ok () u) :
    ∃ ss, SourceStatement.readAll lines = .ok ss ∧
      ((labelNames ss).Nodup ∧ config.dataStart.toNat + (dataValues ss).length < UInt32.size) ∧
      Reached config ss ss (ss.length + 1) u := by
  obtain ⟨ss, symbols, v, hread, hsymbols, hemit, hplace⟩ := Session.feed_eq_ok_iff.1 h
  have hfirst := (SymbolTable.exists_ofStatements_iff ss config.dataStart).1 ⟨symbols, hsymbols⟩
  have hstart := reached_of_emitAll_eq_ok hsymbols hemit
  exact ⟨ss, hread, hfirst, hstart.placeAll hfirst.1 (List.nil_append ss).symm hplace⟩

theorem exists_feed (hread : SourceStatement.readAll lines = .ok ss) (h : Encodable config ss) :
    ∃ u, Session.feed lines (.fresh config) = .ok () u := by
  obtain ⟨symbols, hsymbols⟩ :=
    (SymbolTable.exists_ofStatements_iff ss config.dataStart).2 ⟨h.nodup, h.dataRoom⟩
  have hbound := boundBelow_of_ofStatements_eq_ok hsymbols
  have hroom : config.textStart.toNat + wordCount config ([] ++ startInstructions config)
      < UInt32.size := by
    simpa [position, sourceInstructions] using h.room_of_append (List.nil_append ss).symm
  have hwords : (directWords? config (labelTable config ss) config.textStart
      ([] ++ startInstructions config)).isSome := by
    simpa [sourceInstructions] using h.words_of_append (List.nil_append ss).symm
  obtain ⟨v, hemit⟩ := (drafted_fresh (labelTable config ss) symbols).exists_emitAll
    (fun _ _ => hbound.get?_labelTable) Session.prologueLine hroom hwords
  have hstart := reached_of_emitAll_eq_ok hsymbols hemit
  obtain ⟨u, hplace⟩ := hstart.exists_placeAll h (List.nil_append ss).symm
  exact ⟨u, Session.feed_eq_ok_iff.2 ⟨ss, symbols, v, hread, hsymbols, hemit, hplace⟩⟩

/-! ## Resolving it -/

theorem Reached.patched?_eq (h : Reached config ss ss (ss.length + 1) v) :
    patched? v.symbols v.deferred.toList v.text.toList
      = (directWords? config (labelTable config ss) config.textStart
          (sourceInstructions config (labelTable config ss) ss)).map
            (instructionCells config.textStart) := by
  rw [patched?_congr _ h.symbols.complete.1, h.drafted.patched]

theorem Reached.encodable (hfirst : (labelNames ss).Nodup ∧
      config.dataStart.toNat + (dataValues ss).length < UInt32.size)
    (h : Reached config ss ss (ss.length + 1) v) {n : Nat}
    (hresolve : Session.resolve v = .ok n u) :
    Encodable config ss where
  nodup := hfirst.1
  dataRoom := hfirst.2
  values value hvalue := by
    obtain ⟨halves, hvalues, -⟩ := h.data
    have hmem : splitData value ∈ halves.map .ok := hvalues ▸ List.mem_map_of_mem hvalue
    obtain ⟨pair, -, hpair⟩ := List.mem_map.1 hmem
    exact ⟨pair, hpair.symm⟩
  expands := h.expands
  compared := h.compared
  textRoom := h.drafted.filled.room
  words := by
    obtain ⟨text, htext, -⟩ := Session.resolve_eq_ok_iff.1 hresolve
    rw [h.patched?_eq] at htext
    obtain ⟨words, hwords, -⟩ := Option.map_eq_some_iff.1 htext
    exact Option.isSome_iff_exists.2 ⟨words, hwords⟩

end

/-! ## Programs -/

/-- The directive that writes an instruction word. -/
def InstructionCell.directive (c : InstructionCell) : Directive :=
  .instructionWrite c.address c.word

/-- The directive that writes a data word. -/
def DataCell.directive (c : DataCell) : Directive :=
  .dataWrite c.address c.high c.low

/-- A program is the one that a source text stands for. -/
structure Assembled (config : Config) (ss : List SourceStatement) (p : Program) : Prop where
  encodable : Encodable config ss
  get?_eq : ∀ name, p.symbols.get? name = (labelTable config ss).get? name
  isDeclared_iff : ∀ name, p.symbols.isDeclared name = true ↔ name ∈ labelNames ss
  unplaced_isEmpty : p.symbols.unplaced.isEmpty = true
  words_eq : ∃ halves words, (dataValues ss).map splitData = halves.map .ok ∧
    directWords? config (labelTable config ss) config.textStart
      (sourceInstructions config (labelTable config ss) ss) = some words ∧
    p.words.toList = [.pcReset] ++ (dataCells config.dataStart halves).map DataCell.directive
      ++ (instructionCells config.textStart words).map InstructionCell.directive
  dataBoundary_eq : p.dataBoundary = (dataSymbols ss).head?

section
variable {config : Config} {ss : List SourceStatement} {lines : List SourceLine} {p : Program}

/-- **The assembler returns the program that its source text stands for.** -/
theorem assembled_of_assemble_eq_ok (h : assemble config lines = .ok p) :
    ∃ ss, SourceStatement.readAll lines = .ok ss ∧ Assembled config ss p := by
  obtain ⟨-, u, hbuild, rfl⟩ := assemble_eq_ok_iff.1 h
  obtain ⟨v, n, hfeed, hresolve⟩ := Session.build_eq_ok_iff.1 hbuild
  obtain ⟨ss, hread, hfirst, hreached⟩ := reached_of_feed_eq_ok hfeed
  obtain ⟨text, htext, -, rfl⟩ := Session.resolve_eq_ok_iff.1 hresolve
  obtain ⟨halves, hvalues, hdata⟩ := hreached.data
  rw [hreached.patched?_eq] at htext
  obtain ⟨words, hwords, rfl⟩ := Option.map_eq_some_iff.1 htext
  refine ⟨ss, hread, ⟨hreached.encodable hfirst hresolve, hreached.symbols.complete.1,
    hreached.symbols.isDeclared, hreached.symbols.complete.2, ⟨halves, words, hvalues, hwords, ?_⟩,
    hreached.dataBoundary⟩⟩
  simp only [Session.program, Array.toList_append, Array.toList_map, hdata]
  rfl

/-- **The assembler succeeds exactly if its source text can be read and meets the conditions.** -/
theorem exists_assemble_iff (hvalid : config.validate = .ok ()) :
    (∃ p, assemble config lines = .ok p) ↔
      ∃ ss, SourceStatement.readAll lines = .ok ss ∧ Encodable config ss := by
  constructor
  · rintro ⟨p, h⟩
    obtain ⟨ss, hread, hp⟩ := assembled_of_assemble_eq_ok h
    exact ⟨ss, hread, hp.encodable⟩
  · rintro ⟨ss, hread, henc⟩
    obtain ⟨v, hfeed⟩ := exists_feed hread henc
    obtain ⟨ss', hread', -, hreached⟩ := reached_of_feed_eq_ok hfeed
    obtain rfl : ss = ss' := Except.ok.inj (hread.symm.trans hread')
    obtain ⟨words, hwords⟩ := Option.isSome_iff_exists.1 henc.words
    have hpatched := hreached.patched?_eq
    rw [hwords] at hpatched
    exact ⟨_, assemble_eq_ok_iff.2 ⟨hvalid, _, Session.build_eq_ok_iff.2
      ⟨v, _, hfeed, Session.resolve_eq_ok_iff.2 ⟨_, hpatched, rfl, rfl⟩⟩, rfl⟩⟩

theorem halves_unique {values : List Int} {halves halves' : List (Word × Word)}
    (h : values.map splitData = halves.map .ok) (h' : values.map splitData = halves'.map .ok) :
    halves = halves' := by
  rw [h] at h'
  exact (List.map_inj_right fun _ _ => Except.ok.inj).1 h'

theorem Assembled.sameData (h : Assembled config ss p) :
    p.symbols.SameData (labelTable config ss) := by
  refine SymbolTable.sameData_of_get?_eq h.get?_eq fun name => ?_
  rw [Bool.eq_iff_iff, h.isDeclared_iff, isDeclared_labelTable]

theorem Assembled.sourceInstructions_eq (h : Assembled config ss p) :
    sourceInstructions config p.symbols ss = sourceInstructions config (labelTable config ss) ss :=
  sourceInstructions_congr h.sameData config ss

theorem Assembled.expands (h : Assembled config ss p) : ∀ s ∈ ss, s.Expands p.symbols := by
  intro s hs mnemonic operands heq
  rw [expand_congr h.sameData]
  exact h.encodable.expands s hs mnemonic operands heq

theorem Assembled.directWords?_eq (h : Assembled config ss p) :
    directWords? config p.symbols config.textStart (sourceInstructions config p.symbols ss)
      = directWords? config (labelTable config ss) config.textStart
          (sourceInstructions config (labelTable config ss) ss) := by
  rw [h.sourceInstructions_eq, directWords?_congr h.get?_eq]

theorem Program.toList_instructions {data : List DataCell} {text : List InstructionCell}
    (h : p.words.toList = [.pcReset] ++ data.map DataCell.directive
      ++ text.map InstructionCell.directive) :
    p.instructions.toList = text.map fun c => (c.address, c.word) := by
  rw [Program.instructions, Array.toList_filterMap, h]
  simp [List.filterMap_map, Function.comp_def, DataCell.directive, InstructionCell.directive]

theorem Assembled.isSome_get?_iff (h : Assembled config ss p) (name : String) :
    (p.symbols.get? name).isSome = true ↔ name ∈ labelNames ss := by
  rw [h.get?_eq, Option.isSome_iff_ne_none, ne_eq, get?_labelTable_eq_none_iff h.encodable.nodup,
    Decidable.not_not]

theorem Assembled.position_eq (h : Assembled config ss p) (front : List SourceStatement) :
    position config p.symbols front = position config (labelTable config ss) front :=
  position_congr h.sameData config front

/-- What the labels between `front` and `rest` name. -/
theorem Assembled.get?_of_declared (h : Assembled config ss p)
    {front labels rest : List SourceStatement} {line : SourceLine} {name : String}
    (hss : ss = front ++ ⟨line, .label name⟩ :: labels ++ rest)
    (hlabels : ∀ s ∈ labels, s.statement.isLabel = true)
    (hrest : ∀ s ∈ rest.head?, s.statement.isLabel = false) :
    p.symbols.get? name = some (.inFrontOf config
      (dataValues (front ++ ⟨line, .label name⟩ :: labels)).length
      (position config p.symbols (front ++ ⟨line, .label name⟩ :: labels))
      (rest.head?.map (·.statement))) := by
  have hall : ∀ s ∈ ⟨line, .label name⟩ :: labels, s.statement.isLabel = true :=
    List.forall_mem_cons.2 ⟨rfl, hlabels⟩
  have hss' : ss = front ++ ⟨line, .label name⟩ :: (labels ++ rest) := by
    rw [hss, List.append_assoc, List.cons_append]
  rw [h.get?_eq, get?_labelTable_of_declared h.encodable.nodup hss',
    nextStatement_append_of_isLabel hlabels, nextStatement_of_head? hrest, h.position_eq,
    position_append_of_isLabel config _ front hall, dataValues_append,
    dataValues_of_isLabel hall, List.append_nil]

theorem Assembled.instructionWords (h : Assembled config ss p) :
    directWords? config p.symbols config.textStart (sourceInstructions config p.symbols ss)
      = some (p.instructions.toList.map Prod.snd) := by
  obtain ⟨halves, words, -, hwords, hlist⟩ := h.words_eq
  rw [h.directWords?_eq, hwords, Program.toList_instructions hlist]
  simp [instructionCells, List.mapIdx_eq_zipIdx_map, Function.comp_def]

theorem Assembled.size_instructions (h : Assembled config ss p) :
    p.instructions.size = position config p.symbols ss := by
  have hlength := length_of_directWords?_eq_some config h.instructionWords
  rwa [List.length_map, Array.length_toList] at hlength

/-- The words of a statement stand in the program from its position on. -/
theorem Assembled.prefix_drop (h : Assembled config ss p) {front rest : List SourceStatement}
    {s : SourceStatement} (hss : ss = front ++ s :: rest) :
    ∃ words, directWords? config p.symbols
        (config.textStart + UInt32.ofNat (position config p.symbols front))
        (s.instructions p.symbols) = some words ∧
      words <+: (p.instructions.toList.map Prod.snd).drop (position config p.symbols front) := by
  have hwords := h.instructionWords
  rw [congrArg (sourceInstructions config _) hss, sourceInstructions_append, directWords?_append,
    List.flatMap_cons, directWords?_append] at hwords
  obtain ⟨before, hbefore, hwords⟩ := Option.bind_eq_some_iff.1 hwords
  obtain ⟨_, hwords, hsplit⟩ := Option.map_eq_some_iff.1 hwords
  obtain ⟨words, hs, hwords⟩ := Option.bind_eq_some_iff.1 hwords
  obtain ⟨behind, -, rfl⟩ := Option.map_eq_some_iff.1 hwords
  refine ⟨words, hs, behind, ?_⟩
  rw [← hsplit, position, ← length_of_directWords?_eq_some config hbefore, List.drop_left]

end

/-! ## A loop -/

/-- A configuration that pads and has a prologue. -/
def loopConfig : Config :=
  { textStart := 16, dataStart := 4, workspaceBase := 8, hazardPad := 1, padPolicy := .writes }

/-- A loop that is left by a branch forward, over a data word. -/
def loopSource : List SourceLine :=
  [ ⟨1, "loop:"⟩, ⟨2, "cmp r0, #3"⟩, ⟨3, "bge done"⟩, ⟨4, "b loop"⟩, ⟨5, "x:"⟩, ⟨6, ".word -1"⟩,
    ⟨7, "done:"⟩, ⟨8, "bx lr"⟩ ]

/-- The statements of the loop. -/
def loopStatements : List SourceStatement :=
  [ ⟨⟨1, "loop:"⟩, .label "loop"⟩,
    ⟨⟨2, "cmp r0, #3"⟩, .instruction ⟨"cmp", .cmp⟩ [.register .sourceZero, .immediate 3]⟩,
    ⟨⟨3, "bge done"⟩, .instruction ⟨"bge", .bge⟩ [.label "done"]⟩,
    ⟨⟨4, "b loop"⟩, .instruction ⟨"b", .b⟩ [.label "loop"]⟩,
    ⟨⟨5, "x:"⟩, .label "x"⟩,
    ⟨⟨6, ".word -1"⟩, .word (.value (-1))⟩,
    ⟨⟨7, "done:"⟩, .label "done"⟩,
    ⟨⟨8, "bx lr"⟩, .instruction ⟨"bx", .bx⟩ [.register .lr]⟩ ]

theorem readAll_loopSource : SourceStatement.readAll loopSource = .ok loopStatements :=
  toOption_eq_some_iff.1 (by decide +kernel)

theorem exists_assemble_loop : ∃ p, assemble loopConfig loopSource = .ok p :=
  exists_eq_ok_of_isOk (by decide +kernel)

/-! ## Direct encoding -/

/-- **Assembling is direct encoding**, although it binds labels and patches branches along the way.
With the labels of the finished program, every statement expands, the instruction words are the
words of the resulting instructions one behind the other, each branch reaching the place of its
label, and the program writes the data words of the source text and then these. -/
theorem direct_encoding_of_assemble {config : Config} {lines : List SourceLine} {p : Program}
    (h : assemble config lines = .ok p) :
    ∃ (statements : List SourceStatement) (halves : List (Word × Word)) (words : List Word),
      SourceStatement.readAll lines = .ok statements ∧
      (∀ s ∈ statements, s.Expands p.symbols) ∧
      (dataValues statements).map splitData = halves.map .ok ∧
      config.dataStart.toNat + halves.length < UInt32.size ∧
      directWords? config p.symbols config.textStart
        (sourceInstructions config p.symbols statements) = some words ∧
      config.textStart.toNat + words.length < UInt32.size ∧
      p.instructions.toList
        = words.mapIdx (fun k word => (config.textStart + UInt32.ofNat k, word)) ∧
      p.words.toList = [.pcReset]
        ++ halves.mapIdx (fun k half =>
          .dataWrite (config.dataStart + UInt32.ofNat k) half.1 half.2)
        ++ words.mapIdx (fun k word =>
          .instructionWrite (config.textStart + UInt32.ofNat k) word) := by
  obtain ⟨ss, hread, hp⟩ := assembled_of_assemble_eq_ok h
  obtain ⟨halves, words, hvalues, hwords, hlist⟩ := hp.words_eq
  have hhalves : (dataValues ss).length = halves.length := by
    simpa using congrArg List.length hvalues
  have hlength := length_of_directWords?_eq_some config hwords
  refine ⟨ss, halves, words, hread, hp.expands, hvalues, hhalves ▸ hp.encodable.dataRoom,
    hp.directWords?_eq.trans hwords, hlength ▸ hp.encodable.textRoom, ?_, ?_⟩
  · simp [Program.toList_instructions hlist, instructionCells, List.mapIdx_eq_zipIdx_map]
  · simp [hlist, dataCells, instructionCells, List.mapIdx_eq_zipIdx_map, Function.comp_def,
      DataCell.directive, InstructionCell.directive]

/-- The program of the loop, whose exit is a branch forward and whose last branch goes back. -/
theorem direct_encoding_of_loop : ∃ p, assemble loopConfig loopSource = .ok p ∧
    ∃ (statements : List SourceStatement) (halves : List (Word × Word)) (words : List Word),
      SourceStatement.readAll loopSource = .ok statements ∧
      (∀ s ∈ statements, s.Expands p.symbols) ∧
      (dataValues statements).map splitData = halves.map .ok ∧
      loopConfig.dataStart.toNat + halves.length < UInt32.size ∧
      directWords? loopConfig p.symbols loopConfig.textStart
        (sourceInstructions loopConfig p.symbols statements) = some words ∧
      loopConfig.textStart.toNat + words.length < UInt32.size ∧
      p.instructions.toList
        = words.mapIdx (fun k word => (loopConfig.textStart + UInt32.ofNat k, word)) ∧
      p.words.toList = [.pcReset]
        ++ halves.mapIdx (fun k half =>
          .dataWrite (loopConfig.dataStart + UInt32.ofNat k) half.1 half.2)
        ++ words.mapIdx (fun k word =>
          .instructionWrite (loopConfig.textStart + UInt32.ofNat k) word) := by
  obtain ⟨p, hp⟩ := exists_assemble_loop
  exact ⟨p, hp, direct_encoding_of_assemble hp⟩

/-! ## Labels -/

/-- **Every label is bound once, to the right place.**  The bound names are the declared ones, none
of which is declared twice or left waiting.  What a label names is told by the first statement
behind it that is not a label, and by the data words and instruction words in front of that
statement; the words of a statement are found in the program at that very position. -/
theorem labels_bound_of_assemble {config : Config} {lines : List SourceLine} {p : Program}
    (h : assemble config lines = .ok p) :
    ∃ statements, SourceStatement.readAll lines = .ok statements ∧
      (labelNames statements).Nodup ∧
      (∀ name, (p.symbols.get? name).isSome = true ↔ name ∈ labelNames statements) ∧
      p.symbols.unplaced.isEmpty = true ∧
      (∀ front line name labels rest,
        statements = front ++ ⟨line, .label name⟩ :: labels ++ rest →
        (∀ s ∈ labels, s.statement.isLabel = true) →
        (∀ s ∈ rest.head?, s.statement.isLabel = false) →
        p.symbols.get? name = some (.inFrontOf config
          (dataValues (front ++ ⟨line, .label name⟩ :: labels)).length
          (position config p.symbols (front ++ ⟨line, .label name⟩ :: labels))
          (rest.head?.map (·.statement)))) ∧
      (∀ front s rest, statements = front ++ s :: rest →
        ∃ words, directWords? config p.symbols
            (config.textStart + UInt32.ofNat (position config p.symbols front))
            (s.instructions p.symbols) = some words ∧
          words <+: (p.instructions.toList.map Prod.snd).drop (position config p.symbols front)) ∧
      position config p.symbols statements = p.instructions.size ∧
      config.dataStart.toNat + (dataValues statements).length < UInt32.size ∧
      config.textStart.toNat + p.instructions.size < UInt32.size := by
  obtain ⟨ss, hread, hp⟩ := assembled_of_assemble_eq_ok h
  refine ⟨ss, hread, hp.encodable.nodup, hp.isSome_get?_iff, hp.unplaced_isEmpty,
    fun _ _ _ _ _ hss hlabels hrest => hp.get?_of_declared hss hlabels hrest,
    fun _ _ _ hss => hp.prefix_drop hss, hp.size_instructions.symm, hp.encodable.dataRoom, ?_⟩
  rw [hp.size_instructions, hp.position_eq]
  exact hp.encodable.textRoom

/-- The labels of the loop: its first word stands behind the prologue and the no-ops in it. -/
theorem labels_bound_of_loop : ∃ p, assemble loopConfig loopSource = .ok p ∧
    p.symbols.get? "loop" = some (.code 22 6) ∧ p.symbols.get? "x" = some (.data 4) ∧
    p.symbols.get? "done" = some (.code 30 14) ∧ p.symbols.get? "lr" = none ∧
    p.symbols.unplaced.isEmpty = true := by
  obtain ⟨p, hp⟩ := exists_assemble_loop
  obtain ⟨ss, hread, -, hbound, hempty, hget, -⟩ := labels_bound_of_assemble hp
  obtain rfl : loopStatements = ss := Except.ok.inj (readAll_loopSource.symm.trans hread)
  have hposition : position loopConfig p.symbols (loopStatements.take 7) = 14 := rfl
  refine ⟨p, hp, ?_, ?_, ?_, ?_, hempty⟩
  · exact hget [] _ _ [] (loopStatements.drop 1) rfl (by simp) (by decide)
  · exact hget (loopStatements.take 4) _ _ [] (loopStatements.drop 5) rfl (by simp) (by decide)
  · refine (hget (loopStatements.take 6) ⟨7, "done:"⟩ "done" [] (loopStatements.drop 7) rfl
      (by simp) (by decide)).trans ?_
    change some (Binding.inFrontOf loopConfig _
      (position loopConfig p.symbols (loopStatements.take 7)) _) = _
    rw [hposition]
    rfl
  · rw [← Option.not_isSome_iff_eq_none, hbound]
    decide

end FlaglessAsm
