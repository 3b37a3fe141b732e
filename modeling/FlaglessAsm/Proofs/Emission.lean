import FlaglessAsm.Proofs.Layout

/-!
# What writing instructions does to a session

For each step that writes instructions: when it succeeds, and in which session it ends then.  A
branch to a label that is not bound yet is written with a displacement of zero and deferred; any
other instruction is written as `Instruction.wordAt?` says for the labels bound so far.

## What is here

* `bind_eq_ok_iff`, `bind_eq_error_iff`: the outcome of two steps.
* `Session.append`, `Session.defer`: a session with more words, and with one more deferred branch.
* `Session.writeWord_eq_ok_iff`, `writeNops_eq_ok_iff`, `locate_eq_ok_iff`, `emit_eq_ok_iff`: what
  the steps do.
-/

set_option autoImplicit false

namespace FlaglessAsm

/-! ## Outcomes -/

section
variable {ε α β : Type} {x : Except ε α}

theorem toOption_eq_some_iff {a : α} : x.toOption = some a ↔ x = .ok a := by
  cases x <;> simp [Except.toOption]

theorem exists_eq_ok_of_isOk (h : x.isOk = true) : ∃ a, x = .ok a := by
  cases x with
  | ok a => exact ⟨a, rfl⟩
  | error e => cases h

/-- A result can be computed together with what holds of it. -/
theorem exists_eq_ok_and_of_any {P : α → Prop} [DecidablePred P]
    (h : x.toOption.any (fun a => decide (P a)) = true) : ∃ a, x = .ok a ∧ P a := by
  obtain ⟨a, ha, hP⟩ := (Option.any_eq_true _ _).1 h
  exact ⟨a, toOption_eq_some_iff.1 ha, of_decide_eq_true hP⟩

theorem mapError_eq_ok_iff {ε' : Type} {f : ε → ε'} {a : α} :
    x.mapError f = .ok a ↔ x = .ok a := by
  cases x with
  | ok b =>
    change Except.ok b = Except.ok a ↔ _
    simp
  | error e =>
    change Except.error (f e) = Except.ok a ↔ _
    simp

theorem map_eq_ok_iff {f : α → β} {b : β} : x.map f = .ok b ↔ ∃ a, x = .ok a ∧ f a = b := by
  cases x <;> simp [Except.map]

@[simp] theorem map_eq_error_iff {f : α → β} {e : ε} : x.map f = .error e ↔ x = .error e := by
  cases x <;> simp [Except.map]

end

/-! ## Steps in a row -/

section
variable {ε σ α β : Type} {x : EStateM ε σ α} {f : α → EStateM ε σ β} {s u : σ}

theorem bind_eq_ok_iff {b : β} :
    (x >>= f) s = .ok b u ↔ ∃ a t, x s = .ok a t ∧ f a t = .ok b u := by
  change EStateM.bind x f s = _ ↔ _
  rw [EStateM.bind]
  cases x s <;> simp [and_assoc]

theorem bind_eq_error_iff {e : ε} :
    (x >>= f) s = .error e u ↔
      x s = .error e u ∨ ∃ a t, x s = .ok a t ∧ f a t = .error e u := by
  change EStateM.bind x f s = _ ↔ _
  rw [EStateM.bind]
  cases x s <;> simp [and_assoc]

end

namespace Session

section
variable {α : Type} (s : Session)

@[simp] theorem pure_apply (a : α) : (pure a : Step α) s = .ok a s := rfl

@[simp] theorem throw_apply (e : AsmError) : (throw e : Step α) s = .error e s := rfl

@[simp] theorem get_apply : (get : Step Session) s = .ok s s := rfl

@[simp] theorem modify_apply (f : Session → Session) :
    (modify f : Step Unit) s = .ok () (f s) := rfl

end

theorem onLine_eq_ok_iff {α : Type} {line : SourceLine} {x : Except Cause α} {a : α}
    {s u : Session} : onLine line x s = .ok a u ↔ x = .ok a ∧ s = u := by
  cases x <;> simp [onLine]

theorem lift_eq_ok_iff {α : Type} {x : Except AsmError α} {a : α} {s u : Session} :
    lift x s = .ok a u ↔ x = .ok a ∧ s = u := by
  cases x <;> simp [lift]

/-! ## Sessions with more in them -/

/-- A session with more instruction words. -/
def append (s : Session) (words : List Word) : Session :=
  { s with
    pc := s.pc + UInt32.ofNat words.length
    text := (s.text.toList ++ instructionCells s.pc words).toArray }

/-- A session with one more deferred branch, at the next address. -/
def defer (s : Session) (line : SourceLine) (condition : Condition) (label : String) : Session :=
  { s with deferred := s.deferred.push ⟨line, s.text.size, s.pc, condition, label⟩ }

section
variable (s : Session)

@[simp] theorem append_nil : s.append [] = s := by
  simp [append, instructionCells]

theorem append_append (as bs : List Word) : (s.append as).append bs = s.append (as ++ bs) := by
  simp [append, instructionCells_append, UInt32.ofNat_add, UInt32.add_assoc]

theorem toList_text_append (words : List Word) :
    (s.append words).text.toList = s.text.toList ++ instructionCells s.pc words := rfl

theorem toNat_pc_append (words : List Word) (h : s.pc.toNat + words.length < UInt32.size) :
    (s.append words).pc.toNat = s.pc.toNat + words.length :=
  Address.toNat_add_ofNat h

end

/-! ## Words -/

theorem writeWord_apply (line : SourceLine) (word : Word) (s : Session) :
    writeWord line word s =
      match s.pc.next? with
      | some pc => .ok () { s with text := s.text.push ⟨s.pc, word⟩, pc }
      | none => .error (.onLine line (.addressSpace .instruction))
          { s with text := s.text.push ⟨s.pc, word⟩ } := by
  cases h : s.pc.next? with
  | none => simp [writeWord, bind, EStateM.bind, h]
  | some pc => simp [writeWord, bind, EStateM.bind, h]

theorem writeWord_eq_ok_iff {line : SourceLine} {word : Word} {s u : Session} :
    writeWord line word s = .ok () u ↔
      s.pc.toNat + 1 < UInt32.size ∧ u = s.append [word] := by
  rw [writeWord_apply]
  have happend : s.append [word]
      = { s with text := s.text.push ⟨s.pc, word⟩, pc := s.pc + UInt32.ofNat 1 } := by
    simp [append, instructionCells, ← Array.toList_inj]
  rw [happend]
  cases h : s.pc.next? with
  | none =>
    have hfull : ¬ s.pc.toNat + 1 < UInt32.size := fun hlt => by
      rw [Address.next?_eq_some_iff_eq_add.2 ⟨hlt, rfl⟩] at h
      exact absurd h (by simp)
    simp [hfull]
  | some pc =>
    obtain ⟨hlt, rfl⟩ := Address.next?_eq_some_iff_eq_add.1 h
    simp [hlt, eq_comm]

theorem writeNops_eq_ok_iff {line : SourceLine} {n : Nat} {s u : Session} :
    writeNops line n s = .ok () u ↔
      s.pc.toNat + n < UInt32.size ∧ u = s.append (List.replicate n nopWord) := by
  induction n generalizing s with
  | zero => simp [writeNops, UInt32.toNat_lt_size, eq_comm]
  | succ n ih =>
    rw [writeNops, bind_eq_ok_iff]
    constructor
    · rintro ⟨_, t, hword, hrest⟩
      obtain ⟨hlt, rfl⟩ := writeWord_eq_ok_iff.1 hword
      obtain ⟨hroom, rfl⟩ := ih.1 hrest
      rw [toNat_pc_append s [nopWord] hlt, List.length_singleton] at hroom
      exact ⟨by omega, by rw [append_append]; rfl⟩
    · rintro ⟨hroom, rfl⟩
      have hlt : s.pc.toNat + 1 < UInt32.size := by omega
      refine ⟨(), s.append [nopWord], writeWord_eq_ok_iff.2 ⟨hlt, rfl⟩, ih.2 ⟨?_, ?_⟩⟩
      · rw [toNat_pc_append s [nopWord] hlt, List.length_singleton]
        omega
      · rw [append_append]
        rfl

/-! ## Instructions -/

theorem branchDisplacement_apply (line : SourceLine) (condition : Condition) (label : String)
    (s : Session) :
    branchDisplacement line condition label s =
      match s.symbols.get? label with
      | some (.code pc _) => .ok (Instruction.displacement pc s.pc) s
      | some _ => .error (.onLine line (.operand (.notCodeLabel label))) s
      | none => .ok 0 (s.defer line condition label) := by
  cases h : s.symbols.get? label with
  | none => simp [branchDisplacement, bind, EStateM.bind, h, defer]
  | some binding => cases binding <;> simp [branchDisplacement, bind, EStateM.bind, h]

theorem locate_eq_ok_iff {line : SourceLine} {i : SymbolicInstruction} {located : Instruction Int}
    {s u : Session} :
    locate line i s = .ok located u ↔
      (i.located? s.symbols s.pc = some located ∧ u = s) ∨
      ∃ condition label, i = .branch condition label ∧ s.symbols.get? label = none ∧
        located = .branch condition 0 ∧ u = s.defer line condition label := by
  cases i with
  | branch condition label =>
    rw [locate, bind_eq_ok_iff]
    simp only [branchDisplacement_apply, Instruction.located?, SymbolTable.code?, pure_apply]
    cases h : s.symbols.get? label with
    | none =>
      constructor
      · rintro ⟨_, _, ⟨⟩, ⟨⟩⟩
        exact .inr ⟨condition, label, rfl, h, rfl, rfl⟩
      · rintro (⟨hnone, -⟩ | ⟨_, _, ⟨⟩, -, rfl, rfl⟩)
        · simp at hnone
        · exact ⟨0, _, rfl, rfl⟩
    | some binding =>
      have hbound : ¬ ∃ c l, Instruction.branch condition label = Instruction.branch c l ∧
          s.symbols.get? l = none ∧ located = .branch c 0 ∧ u = s.defer line c l := by
        rintro ⟨_, _, ⟨⟩, hnone, -⟩
        simp [h] at hnone
      cases binding with
      | code pc position =>
        simp only [Option.map_some, Option.some_inj, or_iff_left hbound]
        constructor
        · rintro ⟨_, _, ⟨⟩, ⟨⟩⟩
          exact ⟨rfl, rfl⟩
        · rintro ⟨rfl, rfl⟩
          exact ⟨_, _, rfl, rfl⟩
      | _ => simp [h]
  | _ => simp [locate, Instruction.located?, eq_comm]

theorem encode_branch_zero (condition : Condition) :
    ∃ word, (Instruction.branch condition 0).encode = .ok word := by
  cases condition <;> exact ⟨_, rfl⟩

theorem isPadded_eq_true_iff {config : Config} {i : SymbolicInstruction} :
    isPadded config i = true ↔ config.padPolicy = .all ∨ i.writesRegister = true := by
  rw [isPadded]
  cases config.padPolicy <;> simp

theorem writePadded_eq_ok_iff {line : SourceLine} {i : SymbolicInstruction} {word : Word}
    {s u : Session} :
    (do
      writeWord line word
      let config := (← get).config
      if isPadded config i then writeNops line config.hazardPad.toNat : Step Unit) s = .ok () u ↔
      s.pc.toNat + span s.config i < UInt32.size ∧ u = s.append (padded s.config i word) := by
  have hnops (t : Session) :
      (if isPadded t.config i then writeNops line t.config.hazardPad.toNat else pure () : Step Unit)
        = writeNops line (padding t.config i) := by
    simp only [padding, ← isPadded_eq_true_iff]
    split <;> rfl
  rw [bind_eq_ok_iff]
  constructor
  · rintro ⟨_, t, hword, hrest⟩
    obtain ⟨hlt, rfl⟩ := writeWord_eq_ok_iff.1 hword
    obtain ⟨_, t, ⟨⟩, hrest⟩ := bind_eq_ok_iff.1 hrest
    rw [hnops] at hrest
    obtain ⟨hroom, rfl⟩ := writeNops_eq_ok_iff.1 hrest
    rw [toNat_pc_append s [word] hlt] at hroom
    rw [append_append]
    exact ⟨by simpa [span, append, Nat.add_assoc, Nat.add_comm 1] using hroom, rfl⟩
  · rintro ⟨hroom, rfl⟩
    rw [span] at hroom
    have hlt : s.pc.toNat + 1 < UInt32.size := by omega
    refine ⟨(), s.append [word], writeWord_eq_ok_iff.2 ⟨hlt, rfl⟩, bind_eq_ok_iff.2
      ⟨_, _, rfl, ?_⟩⟩
    rw [hnops, writeNops_eq_ok_iff, toNat_pc_append s [word] hlt, append_append]
    exact ⟨by simpa [append, Nat.add_assoc, Nat.add_comm 1] using hroom, rfl⟩

theorem emit_eq_ok_iff_locate {line : SourceLine} {i : SymbolicInstruction} {s u : Session} :
    emit line i s = .ok () u ↔ ∃ located t word, locate line i s = .ok located t ∧
      located.encode = .ok word ∧ t.pc.toNat + span t.config i < UInt32.size ∧
      u = t.append (padded t.config i word) := by
  rw [emit, bind_eq_ok_iff]
  constructor
  · rintro ⟨located, t, hlocate, hrest⟩
    obtain ⟨word, _, hline, hrest⟩ := bind_eq_ok_iff.1 hrest
    obtain ⟨hword, rfl⟩ := onLine_eq_ok_iff.1 hline
    exact ⟨located, t, word, hlocate, mapError_eq_ok_iff.1 hword, writePadded_eq_ok_iff.1 hrest⟩
  · rintro ⟨located, t, word, hlocate, hword, hrest⟩
    refine ⟨located, t, hlocate, bind_eq_ok_iff.2 ⟨word, t, ?_, writePadded_eq_ok_iff.2 hrest⟩⟩
    exact onLine_eq_ok_iff.2 ⟨mapError_eq_ok_iff.2 hword, rfl⟩

/-- **What writing an instruction does**: its word is the one for the labels bound so far, or that
of a branch that goes nowhere yet. -/
theorem emit_eq_ok_iff {line : SourceLine} {i : SymbolicInstruction} {s u : Session} :
    emit line i s = .ok () u ↔
      s.pc.toNat + span s.config i < UInt32.size ∧
      ((∃ word, i.wordAt? s.symbols s.pc = some word ∧ u = s.append (padded s.config i word)) ∨
        ∃ condition label word, i = .branch condition label ∧ s.symbols.get? label = none ∧
          (Instruction.branch condition 0).encode = .ok word ∧
          u = (s.defer line condition label).append (padded s.config i word)) := by
  rw [emit_eq_ok_iff_locate]
  constructor
  · rintro ⟨located, t, word, hlocate, hword, hroom, rfl⟩
    rcases locate_eq_ok_iff.1 hlocate with
      ⟨hlocated, rfl⟩ | ⟨condition, label, rfl, hnone, rfl, rfl⟩
    · refine ⟨hroom, .inl ⟨word, ?_, rfl⟩⟩
      rw [Instruction.wordAt?, hlocated, Option.bind_some, hword, Except.toOption]
    · exact ⟨hroom, .inr ⟨condition, label, word, rfl, hnone, hword, rfl⟩⟩
  · rintro ⟨hroom, ⟨word, hword, rfl⟩ | ⟨condition, label, word, rfl, hnone, hword, rfl⟩⟩
    · rw [Instruction.wordAt?, Option.bind_eq_some_iff] at hword
      obtain ⟨located, hlocated, hword⟩ := hword
      refine ⟨located, s, word, locate_eq_ok_iff.2 (.inl ⟨hlocated, rfl⟩), ?_, hroom, rfl⟩
      exact toOption_eq_some_iff.1 hword
    · exact ⟨.branch condition 0, s.defer line condition label, word,
        locate_eq_ok_iff.2 (.inr ⟨condition, label, rfl, hnone, rfl, rfl⟩), hword, hroom, rfl⟩

end Session
end FlaglessAsm
