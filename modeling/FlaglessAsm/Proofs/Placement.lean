import FlaglessAsm.Proofs.Labels
import FlaglessAsm.Proofs.Patching

/-!
# What a session holds behind a list of statements

The invariant of the forward pass.  `Reached config ss front n s` says all there is to say about a
session that has placed the statements `front` of a source text `ss` and has bound the labels in
front of the first `n` of them: its instruction words will be the direct encoding of `front`, its
data words are those of `front`, its labels are those of `labelTable` as far as they are bound, and
`front` passed every check on the way.

Statements are placed one at a time, so the invariant is kept by each of them
(`Reached.bindLabels`, `Reached.place`) and hence by all (`Reached.placeAll`); and what stops a
statement from being placed is always one of the conditions collected in `Encodable`
(`Reached.exists_place`, `Reached.exists_placeAll`).

## What is here

* `AfterCompare`, `Compared`: conditional branches and the compares in front of them.
* `Encodable`: the conditions under which a source text can be assembled.
* `Session.place_value_eq_ok_iff`, `place_instruction_eq_ok_iff`: what placing a statement does.
* `Reached` and its steps.
-/

set_option autoImplicit false

namespace FlaglessAsm

/-! ## Compares -/

/-- Nothing but conditional branches stands behind the last compare. -/
def AfterCompare (front : List SourceStatement) : Prop :=
  ∃ before s branches, front = before ++ s :: branches ∧ s.statement.isCompare = true ∧
    ∀ b ∈ branches, b.statement.isConditionalBranch = true

/-- Every conditional branch stands behind a compare, with nothing but conditional branches between
them. -/
def Compared (ss : List SourceStatement) : Prop :=
  ∀ before s rest, ss = before ++ s :: rest → s.statement.isConditionalBranch = true →
    AfterCompare before

theorem afterCompare_nil : ¬ AfterCompare [] := by
  rintro ⟨before, s, branches, h, -⟩
  simp at h

theorem afterCompare_concat {front : List SourceStatement} {s : SourceStatement} :
    AfterCompare (front ++ [s]) ↔
      s.statement.isCompare = true ∨
        (s.statement.isConditionalBranch = true ∧ AfterCompare front) := by
  constructor
  · rintro ⟨before, c, branches, h, hc, hbranches⟩
    rcases List.eq_nil_or_concat branches with rfl | ⟨bs, b, rfl⟩
    · obtain ⟨-, hs⟩ := List.append_inj' h rfl
      rw [List.cons.injEq] at hs
      exact .inl (hs.1 ▸ hc)
    · rw [List.concat_eq_append, ← List.cons_append, ← List.append_assoc] at h
      obtain ⟨rfl, hs⟩ := List.append_inj' h rfl
      rw [List.cons.injEq] at hs
      refine .inr ⟨hs.1 ▸ hbranches b (by simp), before, c, bs, rfl, hc, fun x hx => ?_⟩
      exact hbranches x (by simp [hx])
  · rintro (hs | ⟨hs, before, c, branches, rfl, hc, hbranches⟩)
    · exact ⟨front, s, [], rfl, hs, by simp⟩
    · refine ⟨before, c, branches ++ [s], by simp, hc, fun b hb => ?_⟩
      rcases List.mem_append.1 hb with hb | hb
      · exact hbranches b hb
      · rw [List.mem_singleton.1 hb]
        exact hs

theorem compared_nil : Compared [] := by
  intro before s rest h
  simp at h

theorem compared_concat {front : List SourceStatement} {s : SourceStatement} :
    Compared (front ++ [s]) ↔
      Compared front ∧ (s.statement.isConditionalBranch = true → AfterCompare front) := by
  constructor
  · intro h
    refine ⟨fun before b rest hfront => h before b (rest ++ [s]) ?_, h front s [] rfl⟩
    simp [hfront]
  · rintro ⟨hfront, hs⟩ before b rest h hb
    rcases List.eq_nil_or_concat rest with rfl | ⟨bs, c, rfl⟩
    · obtain ⟨rfl, hb'⟩ := List.append_inj' h rfl
      rw [List.cons.injEq] at hb'
      exact hs (hb'.1 ▸ hb)
    · rw [List.concat_eq_append, ← List.cons_append, ← List.append_assoc] at h
      obtain ⟨rfl, -⟩ := List.append_inj' h rfl
      exact hfront before b bs rfl hb

/-! ## Conditions -/

/-- The conditions under which a source text can be assembled. -/
structure Encodable (config : Config) (ss : List SourceStatement) : Prop where
  nodup : (labelNames ss).Nodup
  dataRoom : config.dataStart.toNat + (dataValues ss).length < UInt32.size
  values : ∀ v ∈ dataValues ss, ∃ halves, splitData v = .ok halves
  expands : ∀ s ∈ ss, s.Expands (labelTable config ss)
  compared : config.strictCompare = true → Compared ss
  textRoom : config.textStart.toNat + position config (labelTable config ss) ss < UInt32.size
  words : (directWords? config (labelTable config ss) config.textStart
    (sourceInstructions config (labelTable config ss) ss)).isSome

/-! ## Placing one statement -/

namespace Session

/-- A session behind an operation, which may be a compare or leave the last one in force. -/
def tracked (operation : Operation) (s : Session) : Session :=
  { s with
    afterCompare :=
      match operation.category with
      | .compare => true
      | .conditionalBranch => s.afterCompare
      | _ => false }

theorem trackCompare_eq_ok_iff {line : SourceLine} {operation : Operation} {s u : Session} :
    trackCompare line operation s = .ok () u ↔
      (operation.category = .conditionalBranch → s.config.strictCompare = true →
        s.afterCompare = true) ∧ u = s.tracked operation := by
  rw [trackCompare, tracked]
  cases operation.category with
  | conditionalBranch =>
    simp only [bind, EStateM.bind, get_apply]
    change _ ↔ _ ∧ u = s
    cases s.config.strictCompare <;> cases s.afterCompare <;> simp [eq_comm]
  | _ => simp only [modify_apply, EStateM.Result.ok.injEq, reduceCtorEq, false_implies, true_and,
      eq_comm]

theorem place_value_eq_ok_iff {line : SourceLine} {v : Int} {s u : Session} :
    place ⟨line, .word (.value v)⟩ s = .ok () u ↔ ∃ high low, splitData v = .ok (high, low) ∧
      s.dataAddress.toNat + 1 < UInt32.size ∧
      u = { s with
        afterCompare := false
        data := s.data.push ⟨s.dataAddress, high, low⟩
        dataAddress := s.dataAddress + UInt32.ofNat 1 } := by
  have hplace : place ⟨line, .word (.value v)⟩ s
      = placeData line v { s with afterCompare := false } := rfl
  rw [hplace, placeData, bind_eq_ok_iff]
  constructor
  · rintro ⟨⟨high, low⟩, _, hline, hrest⟩
    obtain ⟨hsplit, rfl⟩ := onLine_eq_ok_iff.1 hline
    obtain ⟨_, _, ⟨⟩, hrest⟩ := bind_eq_ok_iff.1 hrest
    obtain ⟨_, _, ⟨⟩, hrest⟩ := bind_eq_ok_iff.1 hrest
    refine ⟨high, low, mapError_eq_ok_iff.1 hsplit, ?_⟩
    cases hnext : s.dataAddress.next? with
    | none => simp [hnext] at hrest
    | some next =>
      obtain ⟨hlt, rfl⟩ := Address.next?_eq_some_iff_eq_add.1 hnext
      simp only [hnext, modify_apply, EStateM.Result.ok.injEq, true_and] at hrest
      exact ⟨hlt, hrest.symm⟩
  · rintro ⟨high, low, hsplit, hlt, rfl⟩
    refine ⟨(high, low), _, onLine_eq_ok_iff.2 ⟨mapError_eq_ok_iff.2 hsplit, rfl⟩,
      bind_eq_ok_iff.2 ⟨_, _, rfl, bind_eq_ok_iff.2 ⟨_, _, rfl, ?_⟩⟩⟩
    simp [Address.next?_eq_some_iff_eq_add.2 ⟨hlt, rfl⟩]

theorem place_instruction_eq_ok_iff {line : SourceLine} {mnemonic : Mnemonic}
    {operands : List Operand} {s u : Session} :
    place ⟨line, .instruction mnemonic operands⟩ s = .ok () u ↔
      (mnemonic.operation.category = .conditionalBranch → s.config.strictCompare = true →
        s.afterCompare = true) ∧
      ∃ is, expand s.symbols mnemonic.operation operands = .ok is ∧
        emitAll line is (s.tracked mnemonic.operation) = .ok () u := by
  rw [place, bind_eq_ok_iff]
  constructor
  · rintro ⟨_, _, htrack, hrest⟩
    obtain ⟨hcompare, rfl⟩ := trackCompare_eq_ok_iff.1 htrack
    obtain ⟨_, _, ⟨⟩, hrest⟩ := bind_eq_ok_iff.1 hrest
    obtain ⟨is, _, hline, hemit⟩ := bind_eq_ok_iff.1 hrest
    obtain ⟨hexpand, rfl⟩ := onLine_eq_ok_iff.1 hline
    exact ⟨hcompare, is, hexpand, hemit⟩
  · rintro ⟨hcompare, is, hexpand, hemit⟩
    refine ⟨(), _, trackCompare_eq_ok_iff.2 ⟨hcompare, rfl⟩, bind_eq_ok_iff.2 ⟨_, _, rfl,
      bind_eq_ok_iff.2 ⟨is, _, onLine_eq_ok_iff.2 ⟨hexpand, rfl⟩, hemit⟩⟩⟩

theorem afterCompare_tracked {line : SourceLine} {mnemonic : Mnemonic} {operands : List Operand}
    {front : List SourceStatement} {s : Session} (h : s.afterCompare = true ↔ AfterCompare front) :
    (s.tracked mnemonic.operation).afterCompare = true ↔
      AfterCompare (front ++ [⟨line, .instruction mnemonic operands⟩]) := by
  rw [afterCompare_concat, ← h, tracked]
  cases hcategory : mnemonic.operation.category <;>
    simp [Statement.isCompare, Statement.isConditionalBranch, hcategory]

end Session

/-! ## The invariant -/

/-- A session has placed the statements `front` of a source text `ss`, and has bound the labels in
front of its first `n` statements. -/
structure Reached (config : Config) (ss front : List SourceStatement) (n : Nat) (s : Session) :
    Prop where
  drafted : Drafted config (labelTable config ss)
    (sourceInstructions config (labelTable config ss) front) s
  symbols : BoundBelow config ss n s.symbols
  data : ∃ halves, (dataValues front).map splitData = halves.map .ok ∧
    s.data.toList = dataCells config.dataStart halves
  dataAddress_eq : s.dataAddress = config.dataStart + UInt32.ofNat (dataValues front).length
  afterCompare : s.afterCompare = true ↔ AfterCompare front
  dataBoundary : s.dataBoundary = (dataSymbols front).head?
  expands : ∀ x ∈ front, x.Expands (labelTable config ss)
  compared : config.strictCompare = true → Compared front

section
variable {config : Config} {ss front rest : List SourceStatement} {n : Nat} {s u : Session}

theorem Reached.position_eq (h : Reached config ss front n s) :
    s.pc = config.textStart + UInt32.ofNat (position config (labelTable config ss) front) ∧
      s.text.size = position config (labelTable config ss) front :=
  ⟨h.drafted.filled.pc_eq, h.drafted.filled.size_eq⟩

theorem Reached.bindLabels (hnd : (labelNames ss).Nodup) (hss : ss = front ++ rest)
    (h : Reached config ss front front.length s)
    (hbind : Session.bindLabels front.length s = .ok () u) :
    Reached config ss front (front.length + 1) u := by
  obtain ⟨⟩ := hbind
  have hsymbols := h.symbols.bindCode hnd hss
  rw [← h.position_eq.1, ← h.position_eq.2] at hsymbols
  exact { h with drafted := h.drafted.congr rfl rfl rfl rfl, symbols := hsymbols }

theorem expands_of_isInstruction_eq_false {t : SymbolTable} {x : SourceStatement}
    (hx : x.statement.isInstruction = false) : x.Expands t := by
  intro mnemonic operands heq
  rw [heq] at hx
  exact absurd hx (by simp [Statement.isInstruction])

/-- A statement that is not an instruction ends the reach of a compare and leaves the instruction
words alone. -/
theorem Reached.concat_of_isInstruction_eq_false (h : Reached config ss front n s)
    {x : SourceStatement} (hx : x.statement.isInstruction = false)
    (hu : u = { s with
      afterCompare := false
      data := u.data
      dataAddress := u.dataAddress
      dataBoundary := u.dataBoundary })
    (hdata : ∃ halves, (dataValues (front ++ [x])).map splitData = halves.map .ok ∧
      u.data.toList = dataCells config.dataStart halves)
    (haddress : u.dataAddress
      = config.dataStart + UInt32.ofNat (dataValues (front ++ [x])).length)
    (hboundary : u.dataBoundary = (dataSymbols (front ++ [x])).head?) :
    Reached config ss (front ++ [x]) n u where
  drafted := by
    rw [sourceInstructions_concat, instructions_of_isInstruction_eq_false _ hx, List.append_nil]
    rw [hu]
    exact h.drafted.congr rfl rfl rfl rfl
  symbols := by
    rw [hu]
    exact h.symbols
  data := hdata
  dataAddress_eq := haddress
  afterCompare := by
    rw [hu, afterCompare_concat]
    simp only [Bool.false_eq_true, false_iff]
    rintro (hc | ⟨hb, -⟩)
    · simp [Statement.isInstruction_of_isCompare hc] at hx
    · simp [Statement.isInstruction_of_isConditionalBranch hb] at hx
  dataBoundary := hboundary
  expands := by
    rw [List.forall_mem_append, List.forall_mem_singleton]
    exact ⟨h.expands, expands_of_isInstruction_eq_false hx⟩
  compared hstrict := by
    refine compared_concat.2 ⟨h.compared hstrict, fun hb => ?_⟩
    simp [Statement.isInstruction_of_isConditionalBranch hb] at hx

theorem Reached.below (h : Reached config ss front n s) : s.symbols.Below (labelTable config ss) :=
  fun _ _ => h.symbols.get?_labelTable

theorem Reached.place_instruction (hnd : (labelNames ss).Nodup) (h : Reached config ss front n s)
    {line : SourceLine} {mnemonic : Mnemonic} {operands : List Operand}
    (hplace : Session.place ⟨line, .instruction mnemonic operands⟩ s = .ok () u) :
    Reached config ss (front ++ [⟨line, .instruction mnemonic operands⟩]) n u := by
  obtain ⟨hcompare, is, hexpand, hemit⟩ := Session.place_instruction_eq_ok_iff.1 hplace
  rw [expand_congr (h.symbols.sameData hnd)] at hexpand
  have hdrafted := h.drafted.congr (u := s.tracked mnemonic.operation) rfl rfl rfl rfl
  obtain ⟨hu, hsame⟩ := hdrafted.emitAll h.below hemit
  have hvalues : dataValues (front ++ [⟨line, .instruction mnemonic operands⟩])
      = dataValues front := by
    simp [dataValues_singleton, Statement.stores?]
  have hdataSymbols :
      dataSymbols (front ++ [⟨line, .instruction mnemonic operands⟩]) = dataSymbols front := by
    simp [dataSymbols_singleton, Statement.refersTo?]
  exact
    { drafted := by
        rwa [sourceInstructions_concat, instructions_of_expand_eq_ok _ hexpand]
      symbols := by
        rw [hsame]
        exact h.symbols
      data := by
        rw [hvalues, hsame]
        exact h.data
      dataAddress_eq := by
        rw [hvalues, hsame]
        exact h.dataAddress_eq
      afterCompare := by
        rw [hsame]
        exact Session.afterCompare_tracked h.afterCompare
      dataBoundary := by
        rw [hdataSymbols, hsame]
        exact h.dataBoundary
      expands := by
        rw [List.forall_mem_append, List.forall_mem_singleton]
        refine ⟨h.expands, fun _ _ heq => ?_⟩
        obtain ⟨⟩ := heq
        exact ⟨is, hexpand⟩
      compared := fun hstrict => by
        refine compared_concat.2 ⟨h.compared hstrict, fun hb => h.afterCompare.1 (hcompare ?_ ?_)⟩
        · simpa [Statement.isConditionalBranch] using hb
        · rw [h.drafted.filled.config_eq, hstrict] }

/-- A number ends up in the next data word. -/
theorem Reached.data_concat (h : Reached config ss front n s) {line : SourceLine} {v : Int}
    {high low : Word} (hsplit : splitData v = .ok (high, low)) :
    ∃ halves, (dataValues (front ++ [⟨line, .word (.value v)⟩])).map splitData = halves.map .ok ∧
      (s.data.push ⟨s.dataAddress, high, low⟩).toList = dataCells config.dataStart halves := by
  obtain ⟨halves, hvalues, hdata⟩ := h.data
  refine ⟨halves ++ [(high, low)], ?_, ?_⟩
  · simp [dataValues_singleton, Statement.stores?, hvalues, hsplit]
  · have hlen : (dataValues front).length = halves.length := by
      simpa using congrArg List.length hvalues
    rw [Array.toList_push, hdata, dataCells_concat, h.dataAddress_eq, hlen]

/-- **Placing a statement keeps the invariant.** -/
theorem Reached.place (hnd : (labelNames ss).Nodup) (h : Reached config ss front n s)
    {x : SourceStatement} (hplace : Session.place x s = .ok () u) :
    Reached config ss (front ++ [x]) n u := by
  obtain ⟨line, name | (v | target) | ⟨mnemonic, operands⟩⟩ := x
  case label =>
    obtain ⟨⟩ := hplace
    refine h.concat_of_isInstruction_eq_false rfl rfl ?_ ?_ ?_
    · simpa [dataValues_singleton, Statement.stores?] using h.data
    · simpa [dataValues_singleton, Statement.stores?] using h.dataAddress_eq
    · simpa [dataSymbols_singleton, Statement.refersTo?] using h.dataBoundary
  case word.value =>
    obtain ⟨high, low, hsplit, -, rfl⟩ := Session.place_value_eq_ok_iff.1 hplace
    refine h.concat_of_isInstruction_eq_false rfl rfl (h.data_concat hsplit) ?_ ?_
    · simp [dataValues_singleton, Statement.stores?, h.dataAddress_eq, UInt32.ofNat_add,
        UInt32.add_assoc]
    · simpa [dataSymbols_singleton, Statement.refersTo?] using h.dataBoundary
  case word.symbol =>
    obtain ⟨⟩ := hplace
    refine h.concat_of_isInstruction_eq_false rfl rfl ?_ ?_ ?_
    · simpa [dataValues_singleton, Statement.stores?] using h.data
    · simpa [dataValues_singleton, Statement.stores?] using h.dataAddress_eq
    · simp [dataSymbols_singleton, Statement.refersTo?, h.dataBoundary]
  case instruction => exact h.place_instruction hnd hplace

/-- **Placing all statements keeps the invariant**, and binds all labels. -/
theorem Reached.placeAll (hnd : (labelNames ss).Nodup) (hss : ss = front ++ rest)
    (h : Reached config ss front front.length s)
    (hplace : Session.placeAll front.length rest s = .ok () u) :
    Reached config ss ss (ss.length + 1) u := by
  induction rest generalizing front s with
  | nil =>
    have hend := h.bindLabels hnd hss hplace
    rw [List.append_nil] at hss
    subst hss
    exact hend
  | cons x rest ih =>
    rw [Session.placeAll, bind_eq_ok_iff] at hplace
    obtain ⟨_, v, hbind, hplace⟩ := hplace
    obtain ⟨_, w, hplace, hrest⟩ := bind_eq_ok_iff.1 hplace
    have hlen : front.length + 1 = (front ++ [x]).length := by simp
    have hw := (h.bindLabels hnd hss hbind).place hnd hplace
    rw [hlen] at hw hrest
    exact ih (by simp [hss]) hw hrest

/-! ## Progress -/

theorem Encodable.room_of_append (h : Encodable config ss) (hss : ss = front ++ rest) :
    config.textStart.toNat + position config (labelTable config ss) front < UInt32.size := by
  have hroom := h.textRoom
  rw [position, congrArg (sourceInstructions config _) hss, sourceInstructions_append,
    wordCount_append] at hroom
  rw [position]
  omega

theorem Encodable.words_of_append (h : Encodable config ss) (hss : ss = front ++ rest) :
    (directWords? config (labelTable config ss) config.textStart
      (sourceInstructions config (labelTable config ss) front)).isSome := by
  have hwords := h.words
  rw [congrArg (sourceInstructions config _) hss, sourceInstructions_append, directWords?_append]
    at hwords
  exact Option.isSome_of_isSome_bind hwords

/-- A statement that meets the conditions can be placed. -/
theorem Reached.exists_place (henc : Encodable config ss) {x : SourceStatement}
    (hss : ss = front ++ x :: rest) (h : Reached config ss front n s) :
    ∃ u, Session.place x s = .ok () u := by
  obtain ⟨line, name | (v | target) | ⟨mnemonic, operands⟩⟩ := x
  case label => exact ⟨_, rfl⟩
  case word.symbol => exact ⟨_, rfl⟩
  case word.value =>
    have hvalues : dataValues ss = dataValues front ++ v :: dataValues rest := by
      rw [hss, dataValues_append]
      rfl
    obtain ⟨⟨high, low⟩, hsplit⟩ := henc.values v (by simp [hvalues])
    have hroom := henc.dataRoom
    rw [hvalues, List.length_append, List.length_cons] at hroom
    have haddress : s.dataAddress.toNat = config.dataStart.toNat + (dataValues front).length := by
      rw [h.dataAddress_eq, Address.toNat_add_ofNat (by omega)]
    exact ⟨_, Session.place_value_eq_ok_iff.2 ⟨high, low, hsplit, by omega, rfl⟩⟩
  case instruction =>
    have hss' : ss = (front ++ [⟨line, .instruction mnemonic operands⟩]) ++ rest := by simp [hss]
    obtain ⟨is, hexpand⟩ := henc.expands ⟨line, .instruction mnemonic operands⟩ (by simp [hss])
      mnemonic operands rfl
    have hroom := henc.room_of_append hss'
    have hwords := henc.words_of_append hss'
    rw [position, sourceInstructions_concat, instructions_of_expand_eq_ok _ hexpand] at hroom
    rw [sourceInstructions_concat, instructions_of_expand_eq_ok _ hexpand] at hwords
    have hdrafted := h.drafted.congr (u := s.tracked mnemonic.operation) rfl rfl rfl rfl
    obtain ⟨u, hemit⟩ := hdrafted.exists_emitAll h.below line hroom hwords
    refine ⟨u, Session.place_instruction_eq_ok_iff.2 ⟨fun hbranch hstrict => ?_, is, ?_, hemit⟩⟩
    · rw [h.drafted.filled.config_eq] at hstrict
      refine h.afterCompare.2 (henc.compared hstrict front _ rest hss ?_)
      simp [Statement.isConditionalBranch, hbranch]
    · rw [expand_congr (h.symbols.sameData henc.nodup), hexpand]

/-- Statements that meet the conditions can be placed. -/
theorem Reached.exists_placeAll (henc : Encodable config ss) (hss : ss = front ++ rest)
    (h : Reached config ss front front.length s) :
    ∃ u, Session.placeAll front.length rest s = .ok () u := by
  induction rest generalizing front s with
  | nil => exact ⟨_, rfl⟩
  | cons x rest ih =>
    have hv := h.bindLabels henc.nodup hss (u := _) rfl
    obtain ⟨w, hplace⟩ := hv.exists_place henc hss
    have hw := hv.place henc.nodup hplace
    have hlen : front.length + 1 = (front ++ [x]).length := by simp
    rw [hlen] at hw
    obtain ⟨u, hrest⟩ := ih (by simp [hss]) hw
    rw [← hlen] at hrest
    exact ⟨u, bind_eq_ok_iff.2 ⟨(), _, rfl, bind_eq_ok_iff.2 ⟨(), w, hplace, hrest⟩⟩⟩

end

end FlaglessAsm
