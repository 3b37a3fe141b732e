import FlaglessAsm.Proofs.CompareLiveness
import FlaglessAsm.Proofs.SingleLines

/-!
# Errors and the lines they blame

An assembly that fails blames a line of the source text, and what is wrong can be found there.  For
most causes it is on the line itself.  A label that is declared twice is blamed on the second
declaration and names the first; a label that is declared nowhere is blamed on an instruction that
refers to it.  The only other error blames a line that is not in the source text, the prologue, if
there is no room for it.

A branch to a label that is not bound yet is the delicate case, because it is refused long after its
line has been left.  The session keeps the line with the branch, so what has to be shown is that all
deferred branches come from lines that say so (`Session.DeferredFrom`).

## What is here

* `SourceLine.Declares`, `PointsTo`: lines that declare labels, and labels that point to others.
* `ToBlame`: what makes a line to blame for a cause.
* `Session.DeferredFrom`, `Session.deferredFrom_of_feed_eq_ok`: where deferred branches come from.
* `error_blames_line`: every error of an assembly.
-/

set_option autoImplicit false

namespace FlaglessAsm

/-! ## What makes a line to blame -/

/-- A line declares a label. -/
def SourceLine.Declares (line : SourceLine) (label : String) : Prop :=
  Statement.read line = .ok (.label label)

/-- A label points to another: what stands behind its line and the labels there is a data word that
names the other label. -/
def PointsTo (lines : List SourceLine) (pointer label : String) : Prop :=
  ∃ front line labels word rest, lines = front ++ line :: (labels ++ word :: rest) ∧
    line.Declares pointer ∧ (∀ l ∈ labels, ∃ name, l.Declares name) ∧
    Statement.read word = .ok (.word (.symbol label))

/-- A line is to blame for a cause. -/
inductive ToBlame (lines : List SourceLine) (line : SourceLine) : Cause → Prop
  /-- What is wrong is on the line itself; it is not a word of the wrong size. -/
  | plain {cause : Cause} (h : cause.isPlain = true) : ToBlame lines line cause
  /-- The line declares a label that an earlier line declares. -/
  | duplicate {label : String} {front middle rest : List SourceLine} {earlier : SourceLine}
      (hlines : lines = front ++ earlier :: (middle ++ line :: rest))
      (hearlier : earlier.Declares label) (hline : line.Declares label) :
      ToBlame lines line (.duplicateLabel label earlier.index)
  /-- The line refers to a label that no line declares. -/
  | unresolved {label : String} {mnemonic : Mnemonic} {operands : List Operand}
      (hread : Statement.read line = .ok (.instruction mnemonic operands))
      (hrefers : RefersTo (PointsTo lines) mnemonic.operation operands label)
      (hlabel : ∀ l ∈ lines, ¬ l.Declares label) :
      ToBlame lines line (.unresolved label)

theorem RefersTo.mono {points points' : String → String → Prop}
    (hpoints : ∀ pointer label, points pointer label → points' pointer label)
    {operation : Operation} {operands : List Operand} {label : String}
    (h : RefersTo points operation operands label) :
    RefersTo points' operation operands label := by
  cases h with
  | branch h => exact .branch h
  | access h => exact .access h
  | pointer h => exact .pointer (hpoints _ _ h)

/-! ## Lines and statements -/

section
variable {config : Config} {lines : List SourceLine} {ss : List SourceStatement}

theorem mem_and_read_of_mem (hread : SourceStatement.readAll lines = .ok ss) {x : SourceStatement}
    (hx : x ∈ ss) : x.line ∈ lines ∧ Statement.read x.line = .ok x.statement := by
  obtain ⟨rfl, hall⟩ := readAll_eq_ok_iff.1 hread
  exact ⟨List.mem_map_of_mem hx, hall x hx⟩

theorem mem_labelNames_of_declares (hread : SourceStatement.readAll lines = .ok ss)
    {line : SourceLine} (hline : line ∈ lines) {label : String} (h : line.Declares label) :
    label ∈ labelNames ss := by
  obtain ⟨rfl, hall⟩ := readAll_eq_ok_iff.1 hread
  obtain ⟨x, hx, rfl⟩ := List.mem_map.1 hline
  have hstatement : x.statement = .label label := Except.ok.inj ((hall x hx).symm.trans h)
  exact List.mem_filterMap.2 ⟨x, hx, by rw [hstatement]; rfl⟩

/-- A label is bound to another label only if it points to it. -/
theorem pointsTo_of_get?_labelTable (hread : SourceStatement.readAll lines = .ok ss)
    (hnd : (labelNames ss).Nodup) {pointer label : String}
    (h : (labelTable config ss).get? pointer = some (.pointer label)) :
    PointsTo lines pointer label := by
  by_cases hmem : pointer ∈ labelNames ss
  · obtain ⟨front, line, rest, rfl⟩ := mem_labelNames_iff.1 hmem
    rw [get?_labelTable_of_declared hnd rfl, Option.some_inj] at h
    have hnext : nextStatement rest = some (.word (.symbol label)) := by
      rcases hnext : nextStatement rest with _ | (_ | (_ | target) | _) <;>
        rw [hnext] at h <;> cases h
      rfl
    obtain ⟨labels, word, behind, rfl, hlabels⟩ := exists_append_of_nextStatement hnext
    obtain ⟨rfl, hall⟩ := readAll_eq_ok_iff.1 hread
    refine ⟨front.map (·.line), line, labels.map (·.line), word, behind.map (·.line), by simp,
      hall ⟨line, .label pointer⟩ (by simp), ?_, hall ⟨word, .word (.symbol label)⟩ (by simp)⟩
    intro l hl
    obtain ⟨⟨line', statement⟩, hx, rfl⟩ := List.mem_map.1 hl
    have hlabel := hlabels _ hx
    cases statement with
    | label name => exact ⟨name, hall ⟨line', .label name⟩ (by simp [hx])⟩
    | _ => cases hlabel
  · rw [get?_labelTable_of_not_mem hmem] at h
    cases h

end

/-! ## Deferred branches -/

theorem category_of_condition?_eq_some {operation : Operation} {condition : Condition}
    (h : operation.condition? = some condition) :
    operation.category = .branch ∨ operation.category = .conditionalBranch := by
  cases operation <;> first | exact .inl rfl | exact .inr rfl | cases h

namespace Session

/-- The deferred branches of a session come from branches to their labels on their lines. -/
def DeferredFrom (ss : List SourceStatement) (s : Session) : Prop :=
  ∀ b ∈ s.deferred.toList, ∃ mnemonic, mnemonic.operation.condition? = some b.condition ∧
    ⟨b.line, .instruction mnemonic [.label b.label]⟩ ∈ ss

section
variable {ss : List SourceStatement} {s u : Session}

/-- An instruction is deferred only if it is a branch. -/
theorem DeferredFrom.emit {line : SourceLine} {i : SymbolicInstruction} (h : DeferredFrom ss s)
    (hi : ∀ condition label, i = .branch condition label →
      ∃ mnemonic, mnemonic.operation.condition? = some condition ∧
        ⟨line, .instruction mnemonic [.label label]⟩ ∈ ss)
    (hemit : Session.emit line i s = .ok () u) : DeferredFrom ss u := by
  obtain ⟨-, ⟨word, -, rfl⟩ | ⟨condition, label, word, rfl, -, -, rfl⟩⟩ := emit_eq_ok_iff.1 hemit
  · exact h
  · intro b hb
    rcases List.mem_append.1 (Array.toList_push ▸ hb) with hb | hb
    · exact h b hb
    · obtain rfl := List.mem_singleton.1 hb
      exact hi condition label rfl

theorem DeferredFrom.emitAll {line : SourceLine} {is : List SymbolicInstruction}
    (h : DeferredFrom ss s)
    (his : ∀ condition label, .branch condition label ∈ is →
      ∃ mnemonic, mnemonic.operation.condition? = some condition ∧
        ⟨line, .instruction mnemonic [.label label]⟩ ∈ ss)
    (hemit : Session.emitAll line is s = .ok () u) : DeferredFrom ss u := by
  induction is generalizing s with
  | nil =>
    obtain ⟨⟩ := hemit
    exact h
  | cons i is ih =>
    obtain ⟨_, v, hemit, hrest⟩ := bind_eq_ok_iff.1 hemit
    refine ih (h.emit (fun condition label hi => ?_) hemit) (fun condition label hi => ?_) hrest
    · exact his condition label (hi ▸ List.mem_cons_self ..)
    · exact his condition label (List.mem_cons_of_mem _ hi)

/-- A branch stands for itself, and nothing else stands for a branch. -/
theorem condition?_of_mem_expand {t : SymbolTable} {operation : Operation} {operands : List Operand}
    {is : List SymbolicInstruction} (h : expand t operation operands = .ok is)
    {condition : Condition} {label : String} (hmem : .branch condition label ∈ is) :
    operation.condition? = some condition ∧ operands = [.label label] := by
  cases hop : operation.condition? with
  | none => cases branchless_expand t hop operands is h _ hmem
  | some condition' =>
    obtain ⟨label', rfl, rfl⟩ := operands_of_condition?_eq_some hop h
    obtain ⟨rfl, rfl⟩ := Instruction.branch.inj (List.mem_singleton.1 hmem)
    exact ⟨rfl, rfl⟩

theorem DeferredFrom.place {x : SourceStatement} (h : DeferredFrom ss s) (hx : x ∈ ss)
    (hplace : Session.place x s = .ok () u) : DeferredFrom ss u := by
  obtain ⟨line, name | (v | target) | ⟨mnemonic, operands⟩⟩ := x
  case word.value =>
    obtain ⟨high, low, -, -, rfl⟩ := place_value_eq_ok_iff.1 hplace
    exact h
  case instruction =>
    obtain ⟨-, is, hexpand, hemit⟩ := place_instruction_eq_ok_iff.1 hplace
    refine DeferredFrom.emitAll (s := s.tracked mnemonic.operation) h ?_ hemit
    intro condition label hmem
    obtain ⟨hcondition, rfl⟩ := condition?_of_mem_expand hexpand hmem
    exact ⟨mnemonic, hcondition, hx⟩
  all_goals
    obtain ⟨⟩ := hplace
    exact h

theorem DeferredFrom.placeAll {index : Nat} {rest : List SourceStatement} (h : DeferredFrom ss s)
    (hrest : ∀ x ∈ rest, x ∈ ss) (hplace : Session.placeAll index rest s = .ok () u) :
    DeferredFrom ss u := by
  induction rest generalizing index s with
  | nil =>
    obtain ⟨⟩ := hplace
    exact h
  | cons x rest ih =>
    rw [List.forall_mem_cons] at hrest
    obtain ⟨_, _, ⟨⟩, hplace⟩ := bind_eq_ok_iff.1 hplace
    obtain ⟨_, v, hx, hplace⟩ := bind_eq_ok_iff.1 hplace
    have hv := DeferredFrom.place
      (s := { s with symbols := s.symbols.bindCode index s.pc s.text.size }) h hrest.1 hx
    exact ih hv hrest.2 hplace

/-- **Deferred branches come from lines that say so.** -/
theorem deferredFrom_of_feed_eq_ok {config : Config} {lines : List SourceLine}
    (h : feed lines (.fresh config) = .ok () u) (hread : SourceStatement.readAll lines = .ok ss) :
    DeferredFrom ss u := by
  obtain ⟨ss', symbols, v, hread', -, hemit, hplace⟩ := feed_eq_ok_iff.1 h
  obtain rfl := Except.ok.inj (hread.symm.trans hread')
  have hfresh : DeferredFrom ss { fresh config with symbols } := by
    intro b hb
    simp [fresh] at hb
  refine (hfresh.emitAll (fun condition label hmem => ?_) hemit).placeAll (fun x hx => hx) hplace
  cases isBranch_of_mem_startInstructions _ hmem

end
end Session

/-! ## Errors -/

section
variable {config : Config} {lines : List SourceLine} {ss : List SourceStatement} {e : AsmError}

/-- The first pass blames lines for causes that can be found there. -/
theorem toBlame_of_ofStatements_eq_error (hread : SourceStatement.readAll lines = .ok ss)
    {dataStart : Address} (h : SymbolTable.ofStatements ss dataStart = .error e) :
    ∃ line ∈ lines, ∃ cause, e = .onLine line cause ∧ ToBlame lines line cause := by
  obtain ⟨before, x, after, rfl, hx⟩ := SymbolTable.firstPassError_of_ofStatements_eq_error h
  obtain ⟨hline, hxread⟩ := mem_and_read_of_mem hread (x := x) (by simp)
  rcases hx with rfl | ⟨name, hname, y, hy, hyname, rfl⟩
  · exact ⟨x.line, hline, _, rfl, .plain rfl⟩
  · rw [List.nil_append] at hy
    obtain ⟨-, hyread⟩ := mem_and_read_of_mem hread (x := y) (by simp [hy])
    rw [hname] at hxread
    rw [hyname] at hyread
    obtain ⟨front, middle, rfl⟩ := List.append_of_mem hy
    have hlines : lines = front.map (·.line) ++ y.line ::
        (middle.map (·.line) ++ x.line :: after.map (·.line)) := by
      rw [← (readAll_eq_ok_iff.1 hread).1]
      simp
    exact ⟨x.line, hline, _, rfl, .duplicate hlines hyread hxread⟩

/-- An instruction that refers to a label declared nowhere is to blame for that. -/
theorem toBlame_of_refersTo (hread : SourceStatement.readAll lines = .ok ss) {x : SourceStatement}
    (hx : x ∈ ss) {mnemonic : Mnemonic} {operands : List Operand}
    (hstatement : x.statement = .instruction mnemonic operands) {label : String}
    (hrefers : RefersTo (PointsTo lines) mnemonic.operation operands label)
    (hlabel : label ∉ labelNames ss) : ToBlame lines x.line (.unresolved label) := by
  obtain ⟨-, hxread⟩ := mem_and_read_of_mem hread hx
  rw [hstatement] at hxread
  exact .unresolved hxread hrefers fun l hl hdeclares =>
    hlabel (mem_labelNames_of_declares hread hl hdeclares)

/-- A statement that cannot be placed is to blame for that. -/
theorem toBlame_of_place_eq_error (hread : SourceStatement.readAll lines = .ok ss)
    (hnd : (labelNames ss).Nodup) {before after : List SourceStatement} {x : SourceStatement}
    (hss : ss = before ++ x :: after) {n : Nat} {v u : Session}
    (hreached : Reached config ss before n v) (h : Session.place x v = .error e u) :
    ∃ line ∈ lines, ∃ cause, e = .onLine line cause ∧ ToBlame lines line cause := by
  have hx : x ∈ ss := by simp [hss]
  obtain ⟨cause, rfl, hcause⟩ := Session.cause_of_failed_place h
  refine ⟨x.line, (mem_and_read_of_mem hread hx).1, cause, rfl, ?_⟩
  rcases hcause with hplain | ⟨mnemonic, operands, label, hstatement, rfl, hdeclared, hrefers⟩
  · exact .plain hplain
  · refine toBlame_of_refersTo hread hx hstatement
      (hrefers.mono fun pointer target hpointer => ?_) ?_
    · have hget := hreached.symbols.get?_labelTable (SymbolTable.pointer?_eq_some_iff.1 hpointer)
      exact pointsTo_of_get?_labelTable hread hnd hget
    · rw [← hreached.symbols.isDeclared, hdeclared]
      exact Bool.false_ne_true

/-- A branch that cannot be patched is to blame for that. -/
theorem toBlame_of_resolve_eq_error (hread : SourceStatement.readAll lines = .ok ss)
    (hnd : (labelNames ss).Nodup) {v u : Session} (hdeferred : Session.DeferredFrom ss v)
    (hreached : Reached config ss ss (ss.length + 1) v) (h : Session.resolve v = .error e u) :
    ∃ line ∈ lines, ∃ cause, e = .onLine line cause ∧ ToBlame lines line cause := by
  obtain ⟨b, hb, cause, rfl, hcause⟩ := Session.cause_of_failed_resolve h
  obtain ⟨mnemonic, hcondition, hx⟩ := hdeferred b hb
  refine ⟨b.line, (mem_and_read_of_mem hread hx).1, cause, rfl, ?_⟩
  rcases hcause with hplain | ⟨rfl, hnone⟩
  · exact .plain hplain
  · refine toBlame_of_refersTo hread hx rfl (.branch (category_of_condition?_eq_some hcondition)) ?_
    have hget := hreached.symbols.complete.1 b.label
    exact (get?_labelTable_eq_none_iff hnd).1 (hget.symm.trans hnone)

end

/-- **Every error of an assembly blames a line that is to blame for it**, and has its number: a line
of the source text, or the prologue if there is no room for it. -/
theorem error_blames_line {config : Config} (hvalid : config.validate = .ok ())
    {lines : List SourceLine} {e : AsmError} (h : assemble config lines = .error e) :
    (∃ line ∈ lines, ∃ cause, e = .onLine line cause ∧ e.line? = some line.index ∧
      ToBlame lines line cause) ∨
    e = .onLine Session.prologueLine (.addressSpace .instruction) ∧ e.line? = some 0 ∧
      config.prologue = true ∧
      2 ^ 32 ≤ config.textStart.toNat + wordCount config (Session.prologue config) := by
  -- The number of an error is that of the line it blames.
  have hnumber (hblame : ∃ line ∈ lines, ∃ cause, e = .onLine line cause ∧
      ToBlame lines line cause) : ∃ line ∈ lines, ∃ cause, e = .onLine line cause ∧
      e.line? = some line.index ∧ ToBlame lines line cause := by
    obtain ⟨line, hline, cause, rfl, hblame⟩ := hblame
    exact ⟨line, hline, cause, rfl, rfl, hblame⟩
  cases stops_of_assemble_eq_error hvalid h with
  | reading h =>
    obtain ⟨line, hmem, cause, he, hplain⟩ := cause_of_readAll_eq_error h
    exact .inl (hnumber ⟨line, hmem, cause, he, .plain hplain⟩)
  | firstPass hread h => exact .inl (hnumber (toBlame_of_ofStatements_eq_error hread h))
  | placing hread hnd hss hreached h =>
    exact .inl (hnumber (toBlame_of_place_eq_error hread hnd hss hreached h))
  | resolving hread hnd hfeed hreached h =>
    have hdeferred := Session.deferredFrom_of_feed_eq_ok hfeed hread
    exact .inl (hnumber (toBlame_of_resolve_eq_error hread hnd hdeferred hreached h))
  | @prologue symbols u h =>
    obtain ⟨he, hroom⟩ := Session.cause_of_prologue_eq_error
      (s := { Session.fresh config with symbols }) hvalid h
    replace hroom : UInt32.size
        ≤ config.textStart.toNat + wordCount config (startInstructions config) :=
      Nat.le_of_not_lt hroom
    rw [startInstructions] at hroom
    split at hroom
    · next hprologue => exact .inr ⟨he, he ▸ rfl, hprologue, hroom⟩
    · exact absurd hroom (Nat.not_le_of_lt config.textStart.toNat_lt_size)

/-- A load through a label that points to one that is declared nowhere. -/
def danglingSource : List SourceLine :=
  [⟨0, "p:"⟩, ⟨2, "q:"⟩, ⟨3, ".word nowhere"⟩, ⟨5, "ldr r1, p"⟩]

theorem error_blames_line_of_dangling :
    loopConfig.validate = .ok () ∧
    assemble loopConfig danglingSource
      = .error (.onLine ⟨5, "ldr r1, p"⟩ (.unresolved "nowhere")) ∧
    ∃ line ∈ danglingSource,
      AsmError.line? (.onLine ⟨5, "ldr r1, p"⟩ (.unresolved "nowhere")) = some line.index ∧
      ToBlame danglingSource line (.unresolved "nowhere") := by
  have h : assemble loopConfig danglingSource
      = .error (.onLine ⟨5, "ldr r1, p"⟩ (.unresolved "nowhere")) :=
    error?_eq_some_iff.1 (by decide +kernel)
  refine ⟨rfl, h, ?_⟩
  rcases error_blames_line rfl h with ⟨line, hline, cause, he, hnumber, hblame⟩ | ⟨he, -⟩
  · obtain ⟨rfl, rfl⟩ := AsmError.onLine.inj he
    exact ⟨_, hline, hnumber, hblame⟩
  · cases he

end FlaglessAsm
