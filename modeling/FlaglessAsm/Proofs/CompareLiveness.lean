import FlaglessAsm.Proofs.Stream

/-!
# Compares in front of conditional branches

A compare leaves its outcome in two registers, and conditional branches test one of them.  Under
strict compares, a session only remembers whether anything but conditional branches has come since
the last compare.  Seen from the words it writes, this means more: the two order tests of that
compare stand in front of every conditional branch, nothing between them and the branch changes what
they found, and as no label names a place between them and the branch, no jump can skip them.

## What is here

* `Condition.tested?`, `Operation.condition?`: what a branch tests, and what an operation branches
  on.
* `Branchless` and `branchless_expand`: only branches stand for branches.
* `Assembled.exists_compare`: the compare in front of a conditional branch.
* `live_compare_of_assemble`: every conditional branch has a live compare.
-/

set_option autoImplicit false

namespace FlaglessAsm

/-! ## Conditions -/

/-- The register that a condition looks at. -/
def Condition.tested? : Condition → Option Register
  | .always => none
  | .ifZero r => some r
  | .ifNonZero r => some r

/-- The condition under which an operation branches. -/
def Operation.condition? : Operation → Option Condition
  | .b => some .always
  | .bge => some (.ifZero .lessThan)
  | .ble => some (.ifZero .greaterThan)
  | .blt => some (.ifNonZero .lessThan)
  | .bgt => some (.ifNonZero .greaterThan)
  | _ => none

/-- Branches test nothing but what a compare leaves behind. -/
theorem Operation.tested_of_condition? {op : Operation} {condition : Condition} {r : Register}
    (h : op.condition? = some condition) (hr : condition.tested? = some r) :
    op.category = .conditionalBranch ∧ (r = .lessThan ∨ r = .greaterThan) := by
  cases op <;> cases h <;> cases hr <;> simp [Operation.category]

theorem Operation.exists_condition? {op : Operation} (h : op.category = .conditionalBranch) :
    ∃ condition, op.condition? = some condition ∧ condition.isConditional = true := by
  cases op <;> first | exact ⟨_, rfl, rfl⟩ | cases h

/-! ## Expansions without branches -/

/-- Whatever instructions an expansion gives, there is no branch among them. -/
def Branchless (x : Except Cause (List SymbolicInstruction)) : Prop :=
  ∀ is, x = .ok is → ∀ i ∈ is, i.isBranch = false

@[simp]
theorem branchless_error (e : Cause) : Branchless (.error e) := by
  simp [Branchless]

@[simp]
theorem branchless_ok {is : List SymbolicInstruction} :
    Branchless (.ok is) ↔ ∀ i ∈ is, i.isBranch = false := by
  simp [Branchless]

@[simp]
theorem branchless_map {α : Type} {f : α → List SymbolicInstruction} {x : Except Cause α} :
    Branchless (x.map f) ↔ ∀ a, x = .ok a → ∀ i ∈ f a, i.isBranch = false := by
  simp [Branchless, map_eq_ok_iff]

theorem branchless_map_append {α : Type} {f : α → SymbolicInstruction}
    (hf : ∀ a, (f a).isBranch = false) {is : List SymbolicInstruction}
    (his : ∀ i ∈ is, i.isBranch = false) (l : List α) : Branchless (.ok (l.map f ++ is)) := by
  rw [branchless_ok]
  intro i hi
  rcases List.mem_append.1 hi with hi | hi
  · obtain ⟨a, -, rfl⟩ := List.mem_map.1 hi
    exact hf a
  · exact his i hi

section
attribute [local simp] Instruction.isBranch moveTo moveBy

theorem branchless_expandSum (op opposite : AluOp) (operands : List Operand) :
    Branchless (expandSum op opposite operands) := by
  have hsum (rd rn : Register) (source : Operand) :
      Branchless (sum op opposite rd rn source) := by
    fun_cases sum <;> simp
  fun_cases expandSum <;> simp [hsum]

theorem branchless_expandMove (operands : List Operand) : Branchless (expandMove operands) := by
  fun_cases expandMove <;> simp

theorem branchless_expandShift (operands : List Operand) : Branchless (expandShift operands) := by
  fun_cases expandShift <;> simp

theorem branchless_expandCompare (operands : List Operand) :
    Branchless (expandCompare operands) := by
  fun_cases expandCompare <;> simp [orderTests]

theorem branchless_expandTransfer (t : SymbolTable) (access : Access) (operands : List Operand) :
    Branchless (expandTransfer t access operands) := by
  have hlabel (value : Register) (label : String) :
      Branchless (expandLabelTransfer t access value label) := by
    fun_cases expandLabelTransfer <;> simp
  fun_cases expandTransfer <;> simp [hlabel]

theorem branchless_expandPush (operands : List Operand) : Branchless (expandPush operands) := by
  fun_cases expandPush
  case case1 registers => exact branchless_map_append (fun _ => rfl) (by simp) _
  case case2 => exact branchless_error _

theorem branchless_expandPop (operands : List Operand) : Branchless (expandPop operands) := by
  fun_cases expandPop
  case case1 registers => exact branchless_map_append (fun _ => rfl) (by simp) _
  case case2 => exact branchless_error _

theorem branchless_expandBlock (access : Access) (operands : List Operand) :
    Branchless (expandBlock access operands) := by
  fun_cases expandBlock
  case case3 base moved registers _ =>
    refine branchless_map_append (fun _ => rfl) ?_ _
    cases moved <;> simp
  all_goals exact branchless_error _

/-- **Only branches stand for branches.** -/
theorem branchless_expand (t : SymbolTable) {op : Operation} (hop : op.condition? = none)
    (operands : List Operand) : Branchless (expand t op operands) := by
  fun_cases expand t op operands
  case case1 | case2 => exact branchless_expandSum _ _ operands
  case case3 => exact branchless_expandMove operands
  case case4 => exact branchless_expandShift operands
  case case5 => exact branchless_expandCompare operands
  case case6 | case7 => exact branchless_expandTransfer t _ operands
  case case8 => exact branchless_expandPush operands
  case case9 => exact branchless_expandPop operands
  case case10 | case11 => exact branchless_expandBlock _ operands
  case case12 | case13 | case14 | case15 | case16 => cases hop
  all_goals simp

end

/-! ## Expansions of branches and compares -/

section
variable {t : SymbolTable} {s : SourceStatement}

/-- A branch has a label for its operand. -/
theorem operands_of_condition?_eq_some {op : Operation} {condition : Condition}
    (hop : op.condition? = some condition) {operands : List Operand}
    {is : List SymbolicInstruction} (h : expand t op operands = .ok is) :
    ∃ label, operands = [.label label] ∧ is = [.branch condition label] := by
  have hbranch : expandBranch condition operands = .ok is := by
    cases op <;> first | exact Option.some_inj.1 hop ▸ h | cases hop
  unfold expandBranch at hbranch
  split at hbranch
  · next label => exact ⟨label, rfl, (Except.ok.inj hbranch).symm⟩
  · cases hbranch

/-- A branch stands for itself. -/
theorem expand_of_condition?_eq_some {op : Operation} {condition : Condition}
    (hop : op.condition? = some condition) {operands : List Operand}
    {is : List SymbolicInstruction} (h : expand t op operands = .ok is) :
    ∃ label, is = [.branch condition label] :=
  (operands_of_condition?_eq_some hop h).imp fun _ his => his.2

/-- A statement with a branch that tests a register is a conditional branch and nothing else. -/
theorem SourceStatement.instructions_of_mem_branch (hs : s.Expands t) {condition : Condition}
    {label : String} (hmem : .branch condition label ∈ s.instructions t) {r : Register}
    (hr : condition.tested? = some r) :
    s.statement.isConditionalBranch = true ∧ (r = .lessThan ∨ r = .greaterThan) ∧
      s.instructions t = [.branch condition label] := by
  obtain ⟨line, statement⟩ := s
  cases statement with
  | instruction mnemonic operands =>
    obtain ⟨is, his⟩ := hs mnemonic operands rfl
    rw [instructions_of_expand_eq_ok t his] at hmem ⊢
    cases hop : mnemonic.operation.condition? with
    | none => cases branchless_expand t hop operands is his _ hmem
    | some condition' =>
      obtain ⟨label', rfl⟩ := expand_of_condition?_eq_some hop his
      obtain ⟨rfl, rfl⟩ := Instruction.branch.inj (List.mem_singleton.1 hmem)
      obtain ⟨hcategory, hregister⟩ := Operation.tested_of_condition? hop hr
      exact ⟨by simp [Statement.isConditionalBranch, hcategory], hregister, rfl⟩
  | _ => simp [SourceStatement.instructions] at hmem

theorem SourceStatement.instructions_of_isConditionalBranch (hs : s.Expands t)
    (hbranch : s.statement.isConditionalBranch = true) :
    ∃ condition label, s.instructions t = [.branch condition label] ∧
      condition.isConditional = true := by
  obtain ⟨line, statement⟩ := s
  cases statement with
  | instruction mnemonic operands =>
    obtain ⟨is, his⟩ := hs mnemonic operands rfl
    obtain ⟨condition, hop, hconditional⟩ :=
      Operation.exists_condition? (of_decide_eq_true hbranch)
    obtain ⟨label, rfl⟩ := expand_of_condition?_eq_some hop his
    exact ⟨condition, label, instructions_of_expand_eq_ok t his line, hconditional⟩
  | _ => cases hbranch

/-- A compare ends with its order tests. -/
theorem SourceStatement.instructions_of_isCompare (hs : s.Expands t)
    (hcompare : s.statement.isCompare = true) :
    ∃ moves a b, s.instructions t = moves ++ orderTests a b := by
  obtain ⟨line, statement⟩ := s
  cases statement with
  | instruction mnemonic operands =>
    obtain ⟨is, his⟩ := hs mnemonic operands rfl
    have hop : mnemonic.operation = .cmp := by
      have hcategory : mnemonic.operation.category = .compare := of_decide_eq_true hcompare
      revert hcategory
      cases mnemonic.operation <;> simp [Operation.category]
    rw [instructions_of_expand_eq_ok t his]
    rw [hop] at his
    have hexpand : expandCompare operands = .ok is := his
    unfold expandCompare at hexpand
    split at hexpand
    · next a b => exact ⟨[], a, b, (Except.ok.inj hexpand).symm⟩
    · next a value =>
      obtain ⟨source, -, rfl⟩ := map_eq_ok_iff.1 hexpand
      exact ⟨[moveTo .scratch source], a, .scratch, rfl⟩
    · cases hexpand
  | _ => cases hcompare

/-- The word of an order test decodes to it. -/
theorem decode_of_wordAt?_slt {pc : Address} {w : Word} {rd a b : Register}
    (h : Instruction.wordAt? t pc (.alu .slt rd a (.register b)) = some w) :
    decode w = some (.alu .slt rd a (.register b)) := by
  have hencode : (Instruction.encode (.alu .slt rd a (.register b))).toOption = some w := h
  obtain ⟨hrange, hw⟩ := Instruction.encode_eq_ok_iff.1 (toOption_eq_some_iff.1 hencode)
  refine decode_alu hrange hw ?_
  have hrd := rd.code.isLt
  have ha := a.code.isLt
  have hb := b.code.isLt
  rw [Instruction.bits_alu] at hw
  simp only [Instruction.sourceKindField, AluOp.opcode] at hw
  exact ne_nopWord hw (by omega)

end

/-! ## The compare in front of a branch -/

/-- What stands in a list but not in the middle of it stands in front of the middle or behind it. -/
theorem append_eq_append_of_not_mem {α : Type} {l m n front rest : List α} {x : α}
    (h : l ++ (m ++ n) = front ++ x :: rest) (hx : x ∉ m) :
    (∃ l', l = front ++ l') ∨ ∃ n', front = l ++ m ++ n' := by
  rcases List.append_eq_append_iff.1 h with ⟨front', rfl, hfront'⟩ | ⟨l', rfl, -⟩
  · rcases List.append_eq_append_iff.1 hfront' with ⟨n', rfl, -⟩ | ⟨m', rfl, hm'⟩
    · exact .inr ⟨n', by simp⟩
    · cases m' with
      | nil => exact .inr ⟨[], by simp⟩
      | cons y m' =>
        obtain ⟨rfl, -⟩ := List.cons.inj hm'
        simp at hx
  · exact .inl ⟨l', rfl⟩

section
variable {config : Config} {ss : List SourceStatement} {p : Program}

/-- A conditional branch is the word of a statement. -/
theorem Assembled.exists_statement_of_branch (h : Assembled config ss p) {k : Nat}
    {condition : Condition} {d : Int} {r : Register}
    (hk : (p.word? k).bind decode = some (.branch condition d))
    (hr : condition.tested? = some r) :
    ∃ front s rest label, ss = front ++ s :: rest ∧ k = position config p.symbols front ∧
      s.statement.isConditionalBranch = true ∧ (r = .lessThan ∨ r = .greaterThan) ∧
      s.instructions p.symbols = [.branch condition label] := by
  obtain ⟨w, hw, hdecode⟩ := Option.bind_eq_some_iff.1 hk
  have hnop : w ≠ nopWord := by
    rintro rfl
    cases decode_nopWord.symm.trans hdecode
  obtain ⟨is₁, i, is₂, his, hposition, hword⟩ := h.exists_of_word?_eq_some hw hnop
  obtain ⟨label, rfl⟩ := exists_label_of_decode hword hdecode
  have hstart : Instruction.branch condition label ∉ startInstructions config := by
    intro hmem
    cases isBranch_of_mem_startInstructions config hmem
  obtain ⟨front, s, rest, js₁, js₂, hss, hs, rfl⟩ :=
    exists_of_sourceInstructions_eq config p.symbols his hstart
  have hexpands := h.expands s (hss ▸ List.mem_append_cons_self)
  obtain ⟨hbranch, hregister, hsingle⟩ :=
    SourceStatement.instructions_of_mem_branch hexpands (hs ▸ List.mem_append_cons_self) hr
  refine ⟨front, s, rest, label, hss, ?_, hbranch, hregister, hsingle⟩
  rw [hs] at hsingle
  cases js₁ with
  | nil => rw [hposition, List.append_nil, position]
  | cons j js₁ => simp at hsingle

/-- No label names a position behind statements that only stand for instructions, up to the last
of them. -/
theorem Assembled.le_or_le_of_code (h : Assembled config ss p)
    {before middle rest : List SourceStatement} (hss : ss = before ++ (middle ++ rest))
    (hmiddle : ∀ s ∈ middle, s.statement.isInstruction = true) {name : String} {pc : Address}
    {k : Nat} (hget : p.symbols.get? name = some (.code pc k)) :
    k ≤ position config p.symbols before ∨ position config p.symbols (before ++ middle) ≤ k := by
  obtain ⟨front, line, rest', hfront, rfl, -⟩ := h.exists_of_get?_eq_code hget
  have hlabel : (⟨line, .label name⟩ : SourceStatement) ∉ middle := by
    intro hmem
    cases hmiddle _ hmem
  rcases append_eq_append_of_not_mem (hss.symm.trans hfront) hlabel with
    ⟨before', rfl⟩ | ⟨rest'', rfl⟩
  · exact .inl (position_le_append config p.symbols front before')
  · exact .inr (position_le_append config p.symbols (before ++ middle) rest'')

/-- **Under strict compares, a conditional branch has a compare in front of it**, with nothing but
conditional branches between them. -/
theorem Assembled.exists_compare (h : Assembled config ss p) (hstrict : config.strictCompare = true)
    {front rest : List SourceStatement} {s : SourceStatement} (hss : ss = front ++ s :: rest)
    (hs : s.statement.isConditionalBranch = true) :
    ∃ before c branches moves a b, front = before ++ c :: branches ∧
      c.statement.isCompare = true ∧ c.instructions p.symbols = moves ++ orderTests a b ∧
      ∀ b ∈ branches, b.statement.isConditionalBranch = true := by
  obtain ⟨before, c, branches, rfl, hc, hbranches⟩ :=
    h.encodable.compared hstrict front s rest hss hs
  obtain ⟨moves, a, b, hmoves⟩ :=
    SourceStatement.instructions_of_isCompare (h.expands c (by simp [hss])) hc
  exact ⟨before, c, branches, moves, a, b, rfl, hc, hmoves, hbranches⟩

/-- Conditional branches stand for conditional branches only. -/
theorem Assembled.decode_of_branches (h : Assembled config ss p) {branches : List SourceStatement}
    (hmem : ∀ b ∈ branches, b ∈ ss)
    (hbranches : ∀ b ∈ branches, b.statement.isConditionalBranch = true) {i : SymbolicInstruction}
    (hi : i ∈ branches.flatMap (·.instructions p.symbols)) {pc : Address} {w : Word}
    (hw : i.wordAt? p.symbols pc = some w) :
    ∃ condition d, decode w = some (.branch condition d) ∧ condition.isConditional = true := by
  obtain ⟨b, hb, hi⟩ := List.mem_flatMap.1 hi
  obtain ⟨condition, label, hinstructions, hconditional⟩ :=
    SourceStatement.instructions_of_isConditionalBranch (h.expands b (hmem b hb)) (hbranches b hb)
  rw [hinstructions, List.mem_singleton] at hi
  subst hi
  obtain ⟨target, -, hdecode⟩ := decode_of_wordAt?_branch hw
  exact ⟨condition, _, hdecode, hconditional⟩

end

/-! ## Live compares -/

/-- The order tests of a compare stand in front of a position.  Only no-ops stand between the two of
them, only no-ops and conditional branches between them and the position, and no code label names a
place behind the first of them up to the position. -/
def LiveCompare (p : Program) (k : Nat) : Prop :=
  ∃ q q' a b, q < q' ∧ q' < k ∧
    (p.word? q).bind decode = some (.alu .slt .lessThan a (.register b)) ∧
    (p.word? q').bind decode = some (.alu .slt .greaterThan b (.register a)) ∧
    (∀ j, q < j → j < q' → p.word? j = some nopWord) ∧
    (∀ j, q' < j → j < k → p.word? j = some nopWord ∨ ∃ condition d,
      (p.word? j).bind decode = some (.branch condition d) ∧ condition.isConditional = true) ∧
    ∀ name pc position, p.symbols.get? name = some (.code pc position) →
      ¬ (q < position ∧ position ≤ k)

section
variable {config : Config} {ss : List SourceStatement} {p : Program}

/-- The words of the order tests of a compare, and the words behind them. -/
theorem Assembled.word?_orderTests (h : Assembled config ss p)
    {early between late : List SymbolicInstruction} {a b : Register}
    (his : sourceInstructions config p.symbols ss = early ++ (orderTests a b ++ (between ++ late)))
    (hbetween : ∀ i ∈ between, ∀ pc w, i.wordAt? p.symbols pc = some w → ∃ condition d,
      decode w = some (.branch condition d) ∧ condition.isConditional = true) :
    ∃ q', wordCount config early < q' ∧
      q' < wordCount config (early ++ (orderTests a b ++ between)) ∧
      (p.word? (wordCount config early)).bind decode
        = some (.alu .slt .lessThan a (.register b)) ∧
      (p.word? q').bind decode = some (.alu .slt .greaterThan b (.register a)) ∧
      (∀ j, wordCount config early < j → j < q' → p.word? j = some nopWord) ∧
      ∀ j, q' < j → j < wordCount config (early ++ (orderTests a b ++ between)) →
        p.word? j = some nopWord ∨ ∃ condition d,
          (p.word? j).bind decode = some (.branch condition d) ∧
            condition.isConditional = true := by
  have his' : sourceInstructions config p.symbols ss
      = (early ++ [.alu .slt .lessThan a (.register b)])
        ++ .alu .slt .greaterThan b (.register a) :: (between ++ late) := by
    rw [his, orderTests]
    simp
  have hend : early ++ (orderTests a b ++ between)
      = (early ++ [.alu .slt .lessThan a (.register b)])
        ++ .alu .slt .greaterThan b (.register a) :: between := by
    rw [orderTests]
    simp
  obtain ⟨w, hword, hw⟩ := h.word?_of_eq_append his
  obtain ⟨w', hword', hw'⟩ := h.word?_of_eq_append his'
  refine ⟨wordCount config (early ++ [.alu .slt .lessThan a (.register b)]), ?_, ?_,
    by rw [hw, Option.bind_some, decode_of_wordAt?_slt hword],
    by rw [hw', Option.bind_some, decode_of_wordAt?_slt hword'], ?_, ?_⟩
  · rw [wordCount_append, wordCount_cons, span]
    omega
  · rw [hend, wordCount_append config _ (_ :: between), wordCount_cons, span]
    omega
  · intro j hj hj'
    have hfirst : sourceInstructions config p.symbols ss
        = early ++ .alu .slt .lessThan a (.register b)
          :: ([] ++ .alu .slt .greaterThan b (.register a) :: (between ++ late)) := his
    obtain ⟨v, hv, hnop | ⟨i, hi, -⟩⟩ := h.word?_between hfirst hj hj'
    · rw [hv, hnop]
    · simp at hi
  · intro j hj hj'
    rw [hend] at hj'
    obtain ⟨v, hv, hnop | ⟨i, hi, pc, hi'⟩⟩ := h.word?_between his' hj hj'
    · exact .inl (by rw [hv, hnop])
    · obtain ⟨condition, d, hdecode, hconditional⟩ := hbetween i hi pc v hi'
      exact .inr ⟨condition, d, by rw [hv, Option.bind_some, hdecode], hconditional⟩

section
variable {before branches rest : List SourceStatement} {c s : SourceStatement}

/-- The instructions of a compare and of the statements around it. -/
theorem sourceInstructions_compare {t : SymbolTable} {moves : List SymbolicInstruction}
    {a b : Register} (hmoves : c.instructions t = moves ++ orderTests a b) :
    sourceInstructions config t (before ++ c :: (branches ++ rest))
      = (sourceInstructions config t before ++ moves) ++ (orderTests a b
        ++ (branches.flatMap (·.instructions t) ++ rest.flatMap (·.instructions t))) := by
  rw [sourceInstructions_append, List.flatMap_cons, hmoves, List.flatMap_append]
  simp

/-- Only instructions stand from a compare to a conditional branch that it is live for. -/
theorem isInstruction_of_mem_compared (hc : c.statement.isCompare = true)
    (hbranches : ∀ b ∈ branches, b.statement.isConditionalBranch = true)
    (hs : s.statement.isConditionalBranch = true) {x : SourceStatement}
    (hx : x ∈ c :: branches ++ [s]) : x.statement.isInstruction = true := by
  rcases List.mem_append.1 hx with hx | hx
  · rcases List.mem_cons.1 hx with rfl | hx
    · exact Statement.isInstruction_of_isCompare hc
    · exact Statement.isInstruction_of_isConditionalBranch (hbranches x hx)
  · rw [List.mem_singleton.1 hx]
    exact Statement.isInstruction_of_isConditionalBranch hs

/-- No label names a position behind the start of a compare, up to a conditional branch that the
compare is live for. -/
theorem Assembled.le_or_lt_of_compared (h : Assembled config ss p)
    (hss : ss = before ++ c :: branches ++ s :: rest) (hc : c.statement.isCompare = true)
    (hbranches : ∀ b ∈ branches, b.statement.isConditionalBranch = true)
    (hs : s.statement.isConditionalBranch = true) {name : String} {pc : Address} {k : Nat}
    (hget : p.symbols.get? name = some (.code pc k)) :
    k ≤ position config p.symbols before ∨
      position config p.symbols (before ++ c :: branches) < k := by
  have hsplit : ss = before ++ ((c :: branches ++ [s]) ++ rest) := by
    rw [hss]
    simp
  refine (h.le_or_le_of_code hsplit
    (fun x hx => isInstruction_of_mem_compared hc hbranches hs hx) hget).imp_right fun hle => ?_
  -- The branch takes a word itself, so what stands behind it stands behind its position.
  obtain ⟨condition, label, hinstructions, -⟩ :=
    SourceStatement.instructions_of_isConditionalBranch (h.expands s (by simp [hss])) hs
  rw [← List.append_assoc, position, sourceInstructions_concat, hinstructions, wordCount_append,
    ← position, wordCount_cons, span] at hle
  omega

/-- A compare with conditional branches behind it is live up to the next conditional branch. -/
theorem Assembled.liveCompare (h : Assembled config ss p)
    {moves : List SymbolicInstruction} {a b : Register}
    (hss : ss = before ++ c :: branches ++ s :: rest) (hc : c.statement.isCompare = true)
    (hmoves : c.instructions p.symbols = moves ++ orderTests a b)
    (hbranches : ∀ b ∈ branches, b.statement.isConditionalBranch = true)
    (hs : s.statement.isConditionalBranch = true) :
    LiveCompare p (position config p.symbols (before ++ c :: branches)) := by
  have hsource : sourceInstructions config p.symbols ss
      = (sourceInstructions config p.symbols before ++ moves) ++ (orderTests a b
        ++ (branches.flatMap (·.instructions p.symbols)
          ++ (s :: rest).flatMap (·.instructions p.symbols))) := by
    rw [hss, List.append_assoc, List.cons_append, sourceInstructions_compare hmoves]
  have hposition : position config p.symbols (before ++ c :: branches)
      = wordCount config ((sourceInstructions config p.symbols before ++ moves) ++ (orderTests a b
        ++ branches.flatMap (·.instructions p.symbols))) := by
    rw [position, ← List.append_nil branches, sourceInstructions_compare hmoves]
    simp
  obtain ⟨q', hlt, hlt', hfirst, hsecond, hnops, hwords⟩ := h.word?_orderTests hsource
    fun i hi pc w hw => h.decode_of_branches (fun b hb => by simp [hss, hb]) hbranches hi hw
  rw [← hposition] at hlt' hwords
  refine ⟨_, q', a, b, hlt, hlt', hfirst, hsecond, hnops, hwords, ?_⟩
  rintro name pc k hget ⟨hk, hk'⟩
  rw [wordCount_append, ← position] at hk
  have hplace := h.le_or_lt_of_compared hss hc hbranches hs hget
  omega

end

end

/-- **Under strict compares, every conditional branch has a live compare.** -/
theorem live_compare_of_assemble {config : Config} {lines : List SourceLine} {p : Program}
    (h : assemble config lines = .ok p) (hstrict : config.strictCompare = true) {k : Nat}
    {condition : Condition} {d : Int} {r : Register}
    (hk : (p.word? k).bind decode = some (.branch condition d))
    (hr : condition.tested? = some r) :
    (r = .lessThan ∨ r = .greaterThan) ∧ LiveCompare p k := by
  obtain ⟨ss, -, hp⟩ := assembled_of_assemble_eq_ok h
  obtain ⟨front, s, rest, label, hss, rfl, hs, hregister, -⟩ :=
    hp.exists_statement_of_branch hk hr
  obtain ⟨before, c, branches, moves, a, b, rfl, hc, hmoves, hbranches⟩ :=
    hp.exists_compare hstrict hss hs
  exact ⟨hregister, hp.liveCompare hss hc hmoves hbranches hs⟩

/-- The exit of the loop, behind its compare with an immediate. -/
theorem live_compare_of_loop : ∃ p, assemble loopConfig loopSource = .ok p ∧
    (p.word? 12).bind decode = some (.branch (.ifZero .lessThan) 0) ∧ LiveCompare p 12 := by
  obtain ⟨p, hp⟩ := exists_assemble_loop
  have hexit : (assemble loopConfig loopSource).toOption.bind (fun p => (p.word? 12).bind decode)
      = some (.branch (.ifZero .lessThan) 0) := by decide +kernel
  rw [hp] at hexit
  exact ⟨p, hp, hexit, (live_compare_of_assemble hp rfl hexit rfl).2⟩

end FlaglessAsm
