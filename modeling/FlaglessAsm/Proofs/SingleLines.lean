import FlaglessAsm.Proofs.CanonicalWords
import FlaglessAsm.Proofs.Changes
import FlaglessAsm.Proofs.SourceMeaning
import FlaglessAsm.Proofs.WellFormed

/-!
# Assembling a single instruction

A source text of one instruction, without a branch in its expansion, is assembled without looking at
any label.  There are three ways for it to be refused: it cannot be expanded, an instruction of its
expansion has an operand out of range, or there is no address left.  Otherwise its words are those
of the expansion, behind the words of the prologue.

## What is here

* `Instruction.unlabelled`: what an instruction is wherever it stands, if it is no branch.
* `Session.cause_of_emitAll_eq_error`, `Session.exists_append_of_emitAll_eq_ok`: what writing such
  instructions does.
* `cause_of_assemble_eq_error`, `assemble_of_expand_eq_error`: why a single instruction is refused.
* `bodyWords`, `exists_directWords?_of_assemble`: the words of a single instruction.
* `exists_withNops_of_directWords?`: what such words decode to.
* `exists_statement_of_assemble`: a line of a longer source text.
-/

set_option autoImplicit false

namespace FlaglessAsm

/-! ## Instructions without labels -/

namespace Instruction

/-- An instruction with its branch, if it is one, going nowhere. -/
def unlabelled : SymbolicInstruction → Instruction Int
  | .nop => .nop
  | .alu op rd rn source => .alu op rd rn source
  | .transfer access value base offset writeback => .transfer access value base offset writeback
  | .branch condition _ => .branch condition 0
  | .exchange rm => .exchange rm

variable {i : SymbolicInstruction}

theorem located?_of_isBranch_eq_false (h : i.isBranch = false) (t : SymbolTable) (pc : Address) :
    i.located? t pc = some i.unlabelled := by
  cases i with
  | branch => simp [isBranch] at h
  | _ => rfl

theorem encode_unlabelled_of_wordAt? (h : i.isBranch = false) {t : SymbolTable} {pc : Address}
    {w : Word} (hw : i.wordAt? t pc = some w) : i.unlabelled.encode = .ok w := by
  rw [wordAt?, located?_of_isBranch_eq_false h, Option.bind_some] at hw
  exact toOption_eq_some_iff.1 hw

end Instruction

/-! ## Writing instructions -/

namespace Session

variable {line : SourceLine} {i : SymbolicInstruction} {is : List SymbolicInstruction}
  {e : AsmError} {s u : Session}

theorem eq_of_writeWord_eq_error {word : Word} (h : writeWord line word s = .error e u) :
    e = .onLine line (.addressSpace .instruction) := by
  rw [writeWord_apply] at h
  cases hnext : s.pc.next? with
  | some pc => simp [hnext] at h
  | none =>
    rw [hnext] at h
    exact (EStateM.Result.error.inj h).1.symm

theorem eq_of_writeNops_eq_error {n : Nat} (h : writeNops line n s = .error e u) :
    e = .onLine line (.addressSpace .instruction) := by
  induction n generalizing s with
  | zero => cases h
  | succ n ih =>
    rcases bind_eq_error_iff.1 h with h | ⟨_, v, -, h⟩
    · exact eq_of_writeWord_eq_error h
    · exact ih h

/-- An instruction that is no branch is refused for its operands or for want of addresses. -/
theorem cause_of_emit_eq_error (hi : i.isBranch = false) (h : emit line i s = .error e u) :
    (e = .onLine line (.addressSpace .instruction) ∧
      ¬ s.pc.toNat + span s.config i < UInt32.size) ∨
    ∃ c, i.unlabelled.encode = .error c ∧ e = .onLine line (.encoding c) := by
  have hlocate : locate line i s = .ok i.unlabelled s :=
    locate_eq_ok_iff.2 (.inl ⟨Instruction.located?_of_isBranch_eq_false hi _ _, rfl⟩)
  rw [emit, bind_of_eq_ok hlocate] at h
  rcases bind_eq_error_iff.1 h with h | ⟨word, v, hword, h⟩
  · obtain ⟨cause, hcause, rfl, -⟩ := onLine_eq_error_iff.1 h
    cases hencode : i.unlabelled.encode with
    | ok => rw [hencode] at hcause; cases hcause
    | error c =>
      rw [hencode] at hcause
      cases hcause
      exact .inr ⟨c, rfl, rfl⟩
  · obtain ⟨-, rfl⟩ := onLine_eq_ok_iff.1 hword
    refine .inl ⟨?_, fun hroom => ?_⟩
    · rcases bind_eq_error_iff.1 h with h | ⟨_, v, -, h⟩
      · exact eq_of_writeWord_eq_error h
      · rcases bind_eq_error_iff.1 h with ⟨⟨⟩⟩ | ⟨_, _, ⟨⟩, h⟩
        split at h
        · exact eq_of_writeNops_eq_error h
        · cases h
    · rw [writePadded_eq_ok_iff.2 ⟨hroom, rfl⟩] at h
      cases h

theorem emit_eq_ok_of_isBranch_eq_false (hi : i.isBranch = false) (h : emit line i s = .ok () u) :
    s.pc.toNat + span s.config i < UInt32.size ∧ ∃ word, u = s.append (padded s.config i word) := by
  obtain ⟨hroom, ⟨word, -, hu⟩ | ⟨_, _, _, rfl, -⟩⟩ := emit_eq_ok_iff.1 h
  · exact ⟨hroom, word, hu⟩
  · cases hi

/-- Writing instructions without branches only adds words. -/
theorem exists_append_of_emitAll_eq_ok (his : ∀ i ∈ is, i.isBranch = false)
    (h : emitAll line is s = .ok () u) :
    s.pc.toNat + wordCount s.config is < UInt32.size ∧
      ∃ words, u = s.append words ∧ words.length = wordCount s.config is := by
  induction is generalizing s with
  | nil =>
    obtain ⟨⟩ := h
    exact ⟨u.pc.toNat_lt_size, [], (append_nil u).symm, rfl⟩
  | cons i is ih =>
    rw [List.forall_mem_cons] at his
    obtain ⟨_, v, hemit, hrest⟩ := bind_eq_ok_iff.1 h
    obtain ⟨hroom, word, rfl⟩ := emit_eq_ok_of_isBranch_eq_false his.1 hemit
    rw [← length_padded s.config i word] at hroom
    obtain ⟨hrooms, words, rfl, hlength⟩ := ih his.2 hrest
    rw [toNat_pc_append s _ hroom, length_padded] at hrooms
    refine ⟨by rw [wordCount_cons, ← Nat.add_assoc]; exact hrooms, _, append_append .., ?_⟩
    rw [List.length_append, hlength, length_padded, wordCount_cons]
    rfl

/-- Instructions without branches are refused for their operands or for want of addresses. -/
theorem cause_of_emitAll_eq_error (his : ∀ i ∈ is, i.isBranch = false)
    (h : emitAll line is s = .error e u) :
    (e = .onLine line (.addressSpace .instruction) ∧
      ¬ s.pc.toNat + wordCount s.config is < UInt32.size) ∨
    ∃ i ∈ is, ∃ c, i.unlabelled.encode = .error c ∧ e = .onLine line (.encoding c) := by
  induction is generalizing s with
  | nil => cases h
  | cons i is ih =>
    rw [List.forall_mem_cons] at his
    rw [wordCount_cons]
    rcases bind_eq_error_iff.1 h with h | ⟨_, v, hemit, hrest⟩
    · rcases cause_of_emit_eq_error his.1 h with ⟨he, hroom⟩ | hencode
      · exact .inl ⟨he, by omega⟩
      · exact .inr ⟨i, List.mem_cons_self .., hencode⟩
    · obtain ⟨hroom, word, rfl⟩ := emit_eq_ok_of_isBranch_eq_false his.1 hemit
      rw [← length_padded s.config i word] at hroom
      rcases ih his.2 hrest with ⟨he, hrooms⟩ | ⟨j, hj, hencode⟩
      · rw [toNat_pc_append s _ hroom, length_padded, Nat.add_assoc] at hrooms
        exact .inl ⟨he, hrooms⟩
      · exact .inr ⟨j, List.mem_cons_of_mem _ hj, hencode⟩

/-- The prologue of a configuration that is accepted is refused for want of addresses only. -/
theorem cause_of_prologue_eq_error (hvalid : s.config.validate = .ok ())
    (h : emitAll line (startInstructions s.config) s = .error e u) :
    e = .onLine line (.addressSpace .instruction) ∧
      ¬ s.pc.toNat + wordCount s.config (startInstructions s.config) < UInt32.size := by
  have hstart : ∀ i ∈ startInstructions s.config, i.isBranch = false :=
    fun i hi => isBranch_of_mem_startInstructions s.config hi
  rcases cause_of_emitAll_eq_error hstart h with hspace | ⟨i, hi, c, hc, -⟩
  · exact hspace
  · -- The words of the prologue fit their fields.
    have hsome : (i.wordAt? .empty 0).isSome = true :=
      isSome_wordAt?_of_mem_startInstructions hvalid hi
    obtain ⟨w, hw⟩ := Option.isSome_iff_exists.1 hsome
    rw [Instruction.encode_unlabelled_of_wordAt? (hstart i hi) hw] at hc
    cases hc

theorem trackCompare_of_category_ne {operation : Operation}
    (h : operation.category ≠ .conditionalBranch) (line : SourceLine) (s : Session) :
    trackCompare line operation s = .ok () (s.tracked operation) :=
  trackCompare_eq_ok_iff.2 ⟨fun hbranch => absurd hbranch h, rfl⟩

/-- An instruction that is no conditional branch is refused where its expansion is, or where the
instructions of its expansion are. -/
theorem cause_of_place_eq_error {m : Mnemonic} {operands : List Operand}
    (hcategory : m.operation.category ≠ .conditionalBranch)
    (h : place ⟨line, .instruction m operands⟩ s = .error e u) :
    (∃ cause, expand s.symbols m.operation operands = .error cause ∧ e = .onLine line cause) ∨
    ∃ is, expand s.symbols m.operation operands = .ok is ∧
      emitAll line is (s.tracked m.operation) = .error e u := by
  have htrack := trackCompare_of_category_ne hcategory line s
  rcases bind_eq_error_iff.1 h with h | ⟨_, v, hv, h⟩
  · rw [htrack] at h
    cases h
  · rw [htrack] at hv
    obtain ⟨⟩ := hv
    rcases bind_eq_error_iff.1 h with ⟨⟨⟩⟩ | ⟨_, _, ⟨⟩, h⟩
    rcases bind_eq_error_iff.1 h with h | ⟨is, v, his, h⟩
    · obtain ⟨cause, hcause, rfl, -⟩ := onLine_eq_error_iff.1 h
      exact .inl ⟨cause, hcause, rfl⟩
    · obtain ⟨hexpand, rfl⟩ := onLine_eq_ok_iff.1 his
      exact .inr ⟨is, hexpand, h⟩

theorem feed_of_readAll_eq_error {lines : List SourceLine}
    (h : SourceStatement.readAll lines = .error e) : feed lines s = .error e s := by
  rw [feed_eq, bind_of_eq_error (lift_eq_error_iff.2 ⟨h, rfl⟩)]

theorem feed_of_ofStatements_eq_error {lines : List SourceLine} {ss : List SourceStatement}
    (hread : SourceStatement.readAll lines = .ok ss)
    (h : SymbolTable.ofStatements ss s.config.dataStart = .error e) :
    feed lines s = .error e s := by
  rw [feed_eq, bind_of_eq_ok (lift_eq_ok_iff.2 ⟨hread, rfl⟩), bind_of_eq_ok (get_apply s),
    bind_of_eq_error (lift_eq_error_iff.2 ⟨h, rfl⟩)]

theorem feed_of_readAll_eq_ok {lines : List SourceLine} {ss : List SourceStatement}
    {symbols : SymbolTable} (hread : SourceStatement.readAll lines = .ok ss)
    (hsymbols : SymbolTable.ofStatements ss s.config.dataStart = .ok symbols) :
    feed lines s = (emitAll prologueLine (startInstructions s.config) >>= fun _ => placeAll 0 ss)
      { s with symbols } := by
  rw [feed_eq, bind_of_eq_ok (lift_eq_ok_iff.2 ⟨hread, rfl⟩), bind_of_eq_ok (get_apply s),
    bind_of_eq_ok (lift_eq_ok_iff.2 ⟨hsymbols, rfl⟩), bind_of_eq_ok (modify_apply s _)]

/-- Feeding a single instruction places it behind the prologue, unless there is no room for that. -/
theorem feed_singleton_cases {m : Mnemonic} {operands : List Operand}
    (hvalid : s.config.validate = .ok ())
    (hread : Statement.read line = .ok (.instruction m operands)) :
    (∃ e u, feed [line] s = .error e u ∧ e.isAddressSpace = true ∧
      ¬ s.pc.toNat + wordCount s.config (startInstructions s.config) < UInt32.size) ∨
    ∃ v : Session, v.config = s.config ∧ v.deferred = s.deferred ∧
      v.pc.toNat = s.pc.toNat + wordCount s.config (startInstructions s.config) ∧
      feed [line] s
        = (place ⟨line, .instruction m operands⟩ >>= fun _ => bindLabels 1) v := by
  obtain ⟨symbols, hsymbols⟩ := (SymbolTable.exists_ofStatements_iff
    [⟨line, .instruction m operands⟩] s.config.dataStart).2
      ⟨List.nodup_nil, s.config.dataStart.toNat_lt_size⟩
  have hstart : ∀ i ∈ startInstructions s.config, i.isBranch = false :=
    fun i hi => isBranch_of_mem_startInstructions s.config hi
  rw [feed_of_readAll_eq_ok (readAll_singleton hread) hsymbols]
  cases hemit : emitAll prologueLine (startInstructions s.config) { s with symbols } with
  | error e v =>
    rw [bind_of_eq_error hemit]
    obtain ⟨he, hroom⟩ := cause_of_prologue_eq_error (s := { s with symbols }) hvalid hemit
    exact .inl ⟨e, v, rfl, by rw [he]; rfl, hroom⟩
  | ok _ v =>
    rw [bind_of_eq_ok hemit]
    obtain ⟨hroom, words, rfl, hlength⟩ := exists_append_of_emitAll_eq_ok hstart hemit
    rw [← hlength] at hroom
    refine .inr ⟨_, ?_, ?_, ?_, rfl⟩
    · rfl
    · rfl
    · rw [← hlength]
      exact toNat_pc_append { s with symbols } words hroom

/-- Nothing is to be resolved where no branch is deferred. -/
theorem resolve_ne_error_of_deferred_eq_empty (h : s.deferred = #[]) : resolve s ≠ .error e u := by
  have hpatched : patched? s.symbols s.deferred.toList s.text.toList = some s.text.toList := by
    rw [h]
    rfl
  rw [resolve_eq_ok_iff.2 ⟨_, hpatched, rfl, rfl⟩]
  intro hresolve
  cases hresolve

end Session

/-! ## Assembling one line -/

section
variable {config : Config} {line : SourceLine} {m : Mnemonic} {operands : List Operand}
  {e : AsmError} {is : List SymbolicInstruction}

theorem assemble_of_read_eq_error (hvalid : config.validate = .ok ())
    (h : Statement.read line = .error e) : assemble config [line] = .error e := by
  have hreads : SourceStatement.readAll [line] = .error e := by
    rw [readAll_cons, h]
  exact assemble_of_build_eq_error hvalid
    (Session.bind_of_eq_error (Session.feed_of_readAll_eq_error hreads))

/-- A single instruction is built by placing it behind the prologue, unless there is no room for
that. -/
theorem build_singleton_cases (hvalid : config.validate = .ok ())
    (hread : Statement.read line = .ok (.instruction m operands)) :
    (∃ e, assemble config [line] = .error e ∧ e.isAddressSpace = true ∧
      ¬ config.textStart.toNat + wordCount config (startInstructions config) < UInt32.size) ∨
    ∃ s : Session, s.config = config ∧ s.deferred = #[] ∧
      s.pc.toNat = config.textStart.toNat + wordCount config (startInstructions config) ∧
      Session.build [line] (.fresh config) = (do
        Session.place ⟨line, .instruction m operands⟩
        Session.bindLabels 1
        let _ ← Session.resolve) s := by
  rcases Session.feed_singleton_cases (s := .fresh config) hvalid hread with
    ⟨e, v, hfeed, he, hroom⟩ | ⟨s, hconfig, hdeferred, hpc, hfeed⟩
  · exact .inl ⟨e, assemble_of_build_eq_error hvalid (Session.bind_of_eq_error hfeed), he, hroom⟩
  · refine .inr ⟨s, hconfig, hdeferred, hpc, ?_⟩
    show EStateM.bind (Session.feed [line]) _ (Session.fresh config) = EStateM.bind _ _ s
    rw [EStateM.bind, EStateM.bind, hfeed]
    cases hplace : Session.place ⟨line, .instruction m operands⟩ s with
    | error e v => rw [Session.bind_of_eq_error hplace]
    | ok _ v =>
      rw [Session.bind_of_eq_ok hplace]
      rfl

/-- **Why a single instruction is refused** if it can be expanded, to instructions without branches:
there is no room for its words, or one of them has an operand out of range. -/
theorem cause_of_assemble_eq_error (hvalid : config.validate = .ok ())
    (hread : Statement.read line = .ok (.instruction m operands))
    (hcategory : m.operation.category ≠ .conditionalBranch)
    (hexpand : ∀ t, expand t m.operation operands = .ok is) (his : ∀ i ∈ is, i.isBranch = false)
    (h : assemble config [line] = .error e) :
    (e.isAddressSpace = true ∧
      ¬ config.textStart.toNat + wordCount config (startInstructions config ++ is) < UInt32.size) ∨
    ∃ i ∈ is, ∃ c, i.unlabelled.encode = .error c ∧ e = .onLine line (.encoding c) := by
  rw [wordCount_append, ← Nat.add_assoc]
  rcases build_singleton_cases hvalid hread with
    ⟨e', he', hspace, hroom⟩ | ⟨s, rfl, hdeferred, hpc, hbuild⟩
  · obtain rfl := Except.error.inj (h.symm.trans he')
    exact .inl ⟨hspace, by omega⟩
  rw [← hpc]
  rcases assemble_eq_error_iff.1 h with hrefused | ⟨-, u, herror⟩
  · rw [hvalid] at hrefused
    cases hrefused
  rw [hbuild] at herror
  rcases bind_eq_error_iff.1 herror with hplace | ⟨_, v, hplace, herror⟩
  · rcases Session.cause_of_place_eq_error hcategory hplace with ⟨c, hc, -⟩ | ⟨js, hjs, hemit⟩
    · rw [hexpand] at hc
      cases hc
    · obtain rfl := Except.ok.inj ((hexpand _).symm.trans hjs)
      rcases Session.cause_of_emitAll_eq_error his hemit with ⟨rfl, hroom⟩ | hencode
      · exact .inl ⟨rfl, hroom⟩
      · exact .inr hencode
  · -- Without a branch, nothing is left to be resolved.
    obtain ⟨-, js, hjs, hemit⟩ := Session.place_instruction_eq_ok_iff.1 hplace
    obtain rfl := Except.ok.inj ((hexpand _).symm.trans hjs)
    obtain ⟨-, words, rfl, -⟩ := Session.exists_append_of_emitAll_eq_ok his hemit
    rcases bind_eq_error_iff.1 herror with ⟨⟨⟩⟩ | ⟨_, v, hbind, herror⟩
    obtain ⟨⟩ := hbind
    rcases bind_eq_error_iff.1 herror with hresolve | ⟨_, _, -, ⟨⟩⟩
    exact absurd hresolve (Session.resolve_ne_error_of_deferred_eq_empty hdeferred)

/-- A single instruction that cannot be expanded is refused for that, unless there is no room for
the prologue. -/
theorem assemble_of_expand_eq_error (hvalid : config.validate = .ok ())
    (hread : Statement.read line = .ok (.instruction m operands))
    (hcategory : m.operation.category ≠ .conditionalBranch) {cause : Cause}
    (hexpand : ∀ t, expand t m.operation operands = .error cause) :
    (∃ e, assemble config [line] = .error e ∧ e.isAddressSpace = true ∧
      ¬ config.textStart.toNat + wordCount config (startInstructions config) < UInt32.size) ∨
    assemble config [line] = .error (.onLine line cause) := by
  rcases build_singleton_cases hvalid hread with hspace | ⟨s, -, -, -, hbuild⟩
  · exact .inl hspace
  · have htrack := Session.trackCompare_of_category_ne hcategory line s
    have hplace : Session.place ⟨line, .instruction m operands⟩ s
        = .error (.onLine line cause) (s.tracked m.operation) := by
      refine (Session.bind_of_eq_ok htrack).trans ?_
      refine (Session.bind_of_eq_ok (Session.get_apply _)).trans ?_
      exact Session.bind_of_eq_error (Session.onLine_eq_error_iff.2 ⟨cause, hexpand _, rfl, rfl⟩)
    exact .inr (assemble_of_build_eq_error hvalid
      (hbuild.trans (Session.bind_of_eq_error hplace)))

end

/-! ## The words of one line -/

/-- The instruction words of a program behind those of the prologue. -/
def bodyWords (config : Config) (p : Program) : List Word :=
  (p.instructions.toList.map Prod.snd).drop (wordCount config (startInstructions config))

section
variable {config : Config} {is : List SymbolicInstruction}

/-- The words of instructions without branches decode to these instructions and no-ops. -/
theorem exists_withNops_of_directWords? {t : SymbolTable} {pc : Address} {words : List Word}
    (his : ∀ i ∈ is, i.isBranch = false) (hidle : ∀ i ∈ is, i.unlabelled ≠ .idleMove)
    (h : directWords? config t pc is = some words) :
    ∃ js, WithNops (is.map Instruction.unlabelled) js ∧ words.map decode = js.map some := by
  induction is generalizing pc words with
  | nil =>
    obtain ⟨⟩ := h
    exact ⟨[], .nil, rfl⟩
  | cons i is ih =>
    rw [List.forall_mem_cons] at his hidle
    obtain ⟨w, rest, hw, hrest, rfl⟩ := directWords?_cons_eq_some_iff.1 h
    obtain ⟨js, hnops, hdecode⟩ := ih his.2 hidle.2 hrest
    have hi := Instruction.decode_of_encode (Instruction.encode_unlabelled_of_wordAt? his.1 hw)
    rw [if_neg hidle.1] at hi
    refine ⟨_, .cons i.unlabelled (padding config i) hnops, ?_⟩
    rw [padded, List.cons_append, List.map_cons, List.map_append, List.map_replicate, hi,
      decode_nopWord, hdecode, List.map_cons, List.map_append, List.map_replicate]

theorem inRange_of_directWords? {t : SymbolTable} {pc : Address} {words : List Word}
    (his : ∀ i ∈ is, i.isBranch = false) (h : directWords? config t pc is = some words) :
    ∀ i ∈ is, i.unlabelled.InRange := by
  intro i hi
  have hsome := (directWords?_isSome_iff config t pc is).1 (Option.isSome_iff_exists.2 ⟨_, h⟩)
  obtain ⟨a, ha⟩ : ∃ a, (a, i) ∈ placed config pc is := exists_mem_placed hi
  obtain ⟨w, hw⟩ := Option.isSome_iff_exists.1 (hsome _ ha)
  exact Instruction.exists_encode_iff.1 ⟨w, Instruction.encode_unlabelled_of_wordAt? (his i hi) hw⟩

/-- **The words of a single instruction** are those of its expansion, behind the prologue. -/
theorem exists_directWords?_of_assemble {line : SourceLine} {m : Mnemonic}
    {operands : List Operand} {p : Program}
    (hread : Statement.read line = .ok (.instruction m operands))
    (hexpand : ∀ t, expand t m.operation operands = .ok is)
    (h : assemble config [line] = .ok p) :
    ∃ pc, directWords? config p.symbols pc is = some (bodyWords config p) := by
  obtain ⟨ss, hss, hassembled⟩ := assembled_of_assemble_eq_ok h
  obtain rfl := Except.ok.inj ((readAll_singleton hread).symm.trans hss)
  have hwords := hassembled.instructionWords
  rw [sourceInstructions, List.flatMap_singleton, instructions_of_expand_eq_ok _ (hexpand _),
    directWords?_append_eq_some_iff] at hwords
  obtain ⟨us, vs, hus, hvs, hsplit⟩ := hwords
  rw [bodyWords, hsplit, ← length_of_directWords?_eq_some config hus, List.drop_left]
  exact ⟨_, hvs⟩

/-- The statement of a line in a source text that is assembled, and those in front of it. -/
theorem exists_statement_of_assemble {front back : List SourceLine} {line : SourceLine}
    {p : Program} (h : assemble config (front ++ line :: back) = .ok p) :
    ∃ fs x bs, SourceStatement.readAll front = .ok fs ∧ Statement.read line = .ok x ∧
      Assembled config (fs ++ ⟨line, x⟩ :: bs) p := by
  obtain ⟨ss, hss, hassembled⟩ := assembled_of_assemble_eq_ok h
  obtain ⟨hlines, hreads⟩ := readAll_eq_ok_iff.1 hss
  obtain ⟨fs, rest, rfl, hfront, hrest⟩ := List.map_eq_append_iff.1 hlines
  obtain ⟨⟨_, x⟩, bs, rfl, rfl, -⟩ := List.map_eq_cons_iff.1 hrest
  refine ⟨fs, x, bs, readAll_eq_ok_iff.2 ⟨hfront, fun s hs => ?_⟩, ?_, hassembled⟩
  · exact hreads s (List.mem_append_left _ hs)
  · exact hreads ⟨_, x⟩ (by simp)

end
end FlaglessAsm
