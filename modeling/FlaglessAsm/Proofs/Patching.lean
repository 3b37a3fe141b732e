import FlaglessAsm.Proofs.Emission
import FlaglessAsm.Session.Resolution

/-!
# Deferred branches come out right

The words of a session are not final while branches are deferred.  They are judged by what they will
be: the words that the deferred branches leave behind once they are patched against a table with the
place of every label.  Judged so, each step that writes an instruction appends its direct encoding,
whether its label was bound at the time or not.

## What is here

* `patched?`: instruction words after a list of deferred branches is patched against a table.
* `Session.resolve_eq_ok_iff`: resolving a session is `patched?`.
* `Drafted`: the words of a session will be the direct encoding of a list of instructions.
* `Drafted.emit`, `Drafted.emitAll`: writing instructions keeps this.
* `Drafted.exists_emit`, `Drafted.exists_emitAll`: instructions that have words can be written.
-/

set_option autoImplicit false

namespace FlaglessAsm

/-! ## Patching against a table -/

/-- The word of a deferred branch. -/
def DeferredBranch.word? (t : SymbolTable) (b : DeferredBranch) : Option Word :=
  Instruction.wordAt? t b.pc (.branch b.condition b.label)

/-- Instruction words after a list of deferred branches is patched against a table. -/
def patched? (t : SymbolTable) :
    List DeferredBranch → List InstructionCell → Option (List InstructionCell)
  | [], text => some text
  | b :: rest, text =>
    (b.word? t).bind fun word => patched? t rest (text.modify b.position ({ · with word }))

theorem modify_append_of_lt {α : Type} {l : List α} {k : Nat} (h : k < l.length) (f : α → α)
    (more : List α) : (l ++ more).modify k f = l.modify k f ++ more := by
  induction l generalizing k with
  | nil => simp at h
  | cons a l ih =>
    cases k with
    | zero => rfl
    | succ k => simp [ih (Nat.lt_of_succ_lt_succ h)]

section
variable (t : SymbolTable)

theorem patched?_congr {u : SymbolTable} (h : ∀ name, t.get? name = u.get? name)
    (bs : List DeferredBranch) (text : List InstructionCell) :
    patched? t bs text = patched? u bs text := by
  induction bs generalizing text with
  | nil => rfl
  | cons b bs ih =>
    simp only [patched?, DeferredBranch.word?, Instruction.wordAt?_congr h, ih]

theorem patched?_append (as bs : List DeferredBranch) (text : List InstructionCell) :
    patched? t (as ++ bs) text = (patched? t as text).bind (patched? t bs) := by
  induction as generalizing text with
  | nil => rfl
  | cons a as ih =>
    rw [List.cons_append, patched?, patched?]
    cases a.word? t with
    | none => rfl
    | some word => exact ih _

/-- Words behind the positions of deferred branches stay as they are. -/
theorem patched?_append_text {bs : List DeferredBranch} {text : List InstructionCell}
    (h : ∀ b ∈ bs, b.position < text.length) (more : List InstructionCell) :
    patched? t bs (text ++ more) = (patched? t bs text).map (· ++ more) := by
  induction bs generalizing text with
  | nil => rfl
  | cons b bs ih =>
    rw [patched?, patched?]
    cases b.word? t with
    | none => rfl
    | some word =>
      have hb : b.position < text.length := h b (List.mem_cons_self ..)
      rw [Option.bind_some, Option.bind_some, modify_append_of_lt hb]
      refine ih fun c hc => ?_
      rw [List.length_modify]
      exact h c (List.mem_cons_of_mem _ hc)

/-- The word of a deferred branch replaces the one written for it. -/
theorem patched?_singleton_append {b : DeferredBranch} {text : List InstructionCell}
    (h : b.position = text.length) (cell : InstructionCell) (more : List InstructionCell) :
    patched? t [b] (text ++ cell :: more)
      = (b.word? t).map fun word => text ++ { cell with word } :: more := by
  rw [patched?]
  cases b.word? t with
  | none => rfl
  | some word =>
    rw [Option.bind_some, patched?, h, List.modify_eq_take_drop, List.take_left, List.drop_left]
    rfl

end

/-! ## Resolving a session -/

namespace Session

theorem patch_eq_ok_iff {b : DeferredBranch} {s u : Session} :
    patch b s = .ok () u ↔ ∃ word, b.word? s.symbols = some word ∧
      u = { s with text := s.text.modify b.position ({ · with word }) } := by
  rw [patch, bind_eq_ok_iff, DeferredBranch.word?, Instruction.wordAt?, Instruction.located?,
    SymbolTable.code?]
  cases h : s.symbols.get? b.label with
  | none => simp [h]
  | some binding =>
    cases binding with
    | code pc position =>
      constructor
      · rintro ⟨_, _, ⟨⟩, hrest⟩
        rw [h] at hrest
        obtain ⟨word, _, hline, ⟨⟩⟩ := bind_eq_ok_iff.1 hrest
        obtain ⟨hword, rfl⟩ := onLine_eq_ok_iff.1 hline
        exact ⟨word, toOption_eq_some_iff.2 (mapError_eq_ok_iff.1 hword), rfl⟩
      · rintro ⟨word, hword, rfl⟩
        refine ⟨s, s, rfl, ?_⟩
        rw [h]
        refine bind_eq_ok_iff.2 ⟨word, s, onLine_eq_ok_iff.2 ⟨?_, rfl⟩, rfl⟩
        exact mapError_eq_ok_iff.2 (toOption_eq_some_iff.1 hword)
    | _ => simp [h]

theorem patchAll_eq_ok_iff {bs : List DeferredBranch} {s u : Session} :
    patchAll bs s = .ok () u ↔ ∃ text, patched? s.symbols bs s.text.toList = some text ∧
      u = { s with text := text.toArray } := by
  induction bs generalizing s with
  | nil => simp [patchAll, patched?, eq_comm]
  | cons b bs ih =>
    rw [patchAll, bind_eq_ok_iff]
    constructor
    · rintro ⟨_, t, hpatch, hrest⟩
      obtain ⟨word, hword, rfl⟩ := patch_eq_ok_iff.1 hpatch
      obtain ⟨text, htext, rfl⟩ := ih.1 hrest
      refine ⟨text, ?_, rfl⟩
      rw [patched?, hword, Option.bind_some, ← Array.toList_modify]
      exact htext
    · rintro ⟨text, htext, rfl⟩
      rw [patched?, Option.bind_eq_some_iff] at htext
      obtain ⟨word, hword, htext⟩ := htext
      refine ⟨(), _, patch_eq_ok_iff.2 ⟨word, hword, rfl⟩, ih.2 ⟨text, ?_, rfl⟩⟩
      rw [Array.toList_modify]
      exact htext

/-- **Resolving a session** patches its deferred branches against its own labels. -/
theorem resolve_eq_ok_iff {n : Nat} {s u : Session} :
    resolve s = .ok n u ↔ ∃ text, patched? s.symbols s.deferred.toList s.text.toList = some text ∧
      n = s.deferred.size ∧ u = { s with text := text.toArray, deferred := #[] } := by
  have hresolve : resolve s = (patchAll s.deferred.toList >>= fun _ => pure s.deferred.size)
      { s with deferred := #[] } := rfl
  rw [hresolve, bind_eq_ok_iff]
  constructor
  · rintro ⟨_, v, hpatch, ⟨⟩⟩
    obtain ⟨text, htext, rfl⟩ := patchAll_eq_ok_iff.1 hpatch
    exact ⟨text, htext, rfl, rfl⟩
  · rintro ⟨text, htext, rfl, rfl⟩
    exact ⟨(), _, patchAll_eq_ok_iff.2 ⟨text, htext, rfl⟩, rfl⟩

end Session

/-! ## Words that will be right -/

/-- Every binding of one table is a binding of the other. -/
def SymbolTable.Below (t u : SymbolTable) : Prop :=
  ∀ name binding, t.get? name = some binding → u.get? name = some binding

/-- A session holds `n` instruction words, at consecutive addresses that do not reach the last
one. -/
structure Filled (config : Config) (n : Nat) (s : Session) : Prop where
  config_eq : s.config = config
  pc_eq : s.pc = config.textStart + UInt32.ofNat n
  room : config.textStart.toNat + n < UInt32.size
  size_eq : s.text.size = n

theorem Filled.toNat_pc {config : Config} {n : Nat} {s : Session} (h : Filled config n s) :
    s.pc.toNat = config.textStart.toNat + n := by
  rw [h.pc_eq, Address.toNat_add_ofNat h.room]

theorem Filled.append {config : Config} {n : Nat} {s : Session} (h : Filled config n s)
    {words : List Word} (hroom : s.pc.toNat + words.length < UInt32.size) :
    Filled config (n + words.length) (s.append words) where
  config_eq := h.config_eq
  pc_eq := by rw [Session.append, h.pc_eq, UInt32.ofNat_add, UInt32.add_assoc]
  room := by
    rw [h.toNat_pc] at hroom
    omega
  size_eq := by simp [Session.append, h.size_eq, length_instructionCells]

theorem Filled.append_padded {config : Config} {is : List SymbolicInstruction} {s : Session}
    (h : Filled config (wordCount config is) s) {i : SymbolicInstruction}
    (hroom : s.pc.toNat + span config i < UInt32.size) (word : Word) :
    Filled config (wordCount config (is ++ [i])) (s.append (padded config i word)) := by
  have hlen := length_padded config i word
  have happend := h.append
    (show s.pc.toNat + (padded config i word).length < UInt32.size from hlen ▸ hroom)
  rw [hlen] at happend
  simpa using happend

theorem Filled.defer {config : Config} {n : Nat} {s : Session} (h : Filled config n s)
    (line : SourceLine) (condition : Condition) (label : String) :
    Filled config n (s.defer line condition label) :=
  ⟨h.config_eq, h.pc_eq, h.room, h.size_eq⟩

/-- The words of a session will be the direct encoding of a list of instructions, once its deferred
branches are patched against a table. -/
structure Drafted (config : Config) (t : SymbolTable) (is : List SymbolicInstruction)
    (s : Session) : Prop where
  filled : Filled config (wordCount config is) s
  position_lt : ∀ b ∈ s.deferred.toList, b.position < s.text.toList.length
  patched : patched? t s.deferred.toList s.text.toList
    = (directWords? config t config.textStart is).map (instructionCells config.textStart)

/-- A session that differs in its instruction words and deferred branches only. -/
def Session.SameRest (s u : Session) : Prop :=
  u = { s with pc := u.pc, text := u.text, deferred := u.deferred }

theorem wordAt?_of_below {t u : SymbolTable} (hbelow : t.Below u) {i : SymbolicInstruction}
    {pc : Address} {word : Word} (h : i.wordAt? t pc = some word) : i.wordAt? u pc = some word := by
  cases i with
  | branch condition label =>
    rw [Instruction.wordAt?, Instruction.located?, SymbolTable.code?] at h
    cases hget : t.get? label with
    | none => simp [hget] at h
    | some binding =>
      rw [Instruction.wordAt?, Instruction.located?, SymbolTable.code?, hbelow label binding hget]
      rwa [hget] at h
  | _ => exact h

namespace Drafted

variable {config : Config} {t : SymbolTable} {is : List SymbolicInstruction} {s u : Session}

theorem congr (h : Drafted config t is s) (hconfig : u.config = s.config) (hpc : u.pc = s.pc)
    (htext : u.text = s.text) (hdeferred : u.deferred = s.deferred) : Drafted config t is u where
  filled := ⟨hconfig ▸ h.filled.config_eq, hpc ▸ h.filled.pc_eq, h.filled.room,
    htext ▸ h.filled.size_eq⟩
  position_lt := by
    rw [hdeferred, htext]
    exact h.position_lt
  patched := by
    rw [hdeferred, htext]
    exact h.patched

theorem append_of_wordAt? (h : Drafted config t is s) {i : SymbolicInstruction}
    (hroom : s.pc.toNat + span config i < UInt32.size) {word : Word}
    (hword : i.wordAt? t s.pc = some word) :
    Drafted config t (is ++ [i]) (s.append (padded config i word)) where
  filled := h.filled.append_padded hroom word
  position_lt b hb := by
    rw [Session.toList_text_append, List.length_append]
    exact Nat.lt_add_right _ (h.position_lt b hb)
  patched := by
    rw [Session.toList_text_append]
    change patched? t s.deferred.toList _ = _
    rw [patched?_append_text t h.position_lt, h.patched, directWords?_concat, ← h.filled.pc_eq,
      hword]
    cases hdirect : directWords? config t config.textStart is with
    | none => rfl
    | some ws =>
      simp [instructionCells_append, length_of_directWords?_eq_some config hdirect,
        ← h.filled.pc_eq]

theorem append_of_deferred (h : Drafted config t is s) {condition : Condition} {label : String}
    (hroom : s.pc.toNat + span config (.branch condition label) < UInt32.size) (line : SourceLine)
    (word : Word) :
    Drafted config t (is ++ [.branch condition label])
      ((s.defer line condition label).append (padded config (.branch condition label) word)) where
  filled := (h.filled.defer line condition label).append_padded hroom word
  position_lt b hb := by
    have hb' : b ∈ s.deferred.toList ∨ b = ⟨line, s.text.size, s.pc, condition, label⟩ := by
      simpa [Session.append, Session.defer] using hb
    rw [Session.toList_text_append, List.length_append, length_instructionCells, length_padded]
    rcases hb' with hb' | rfl
    · exact Nat.lt_add_right _ (h.position_lt b hb')
    · exact Nat.lt_add_of_pos_right (Nat.succ_pos _)
  patched := by
    have hdeferred : ((s.defer line condition label).append
        (padded config (.branch condition label) word)).deferred.toList
          = s.deferred.toList ++ [⟨line, s.text.size, s.pc, condition, label⟩] := by
      simp [Session.append, Session.defer]
    -- The patches of earlier branches pass by the new words; the last patch hits the first of them.
    rw [hdeferred, Session.toList_text_append, patched?_append]
    change ((patched? t s.deferred.toList (s.text.toList ++ instructionCells s.pc _)).bind _) = _
    rw [patched?_append_text t h.position_lt, directWords?_concat, ← h.filled.pc_eq]
    have hpatched := h.patched
    cases hdirect : directWords? config t config.textStart is with
    | none =>
      rw [hdirect] at hpatched
      rw [hpatched]
      rfl
    | some ws =>
      rw [hdirect] at hpatched
      have hlen : s.text.size = (instructionCells config.textStart ws).length := by
        rw [length_instructionCells, length_of_directWords?_eq_some config hdirect,
          h.filled.size_eq]
      rw [hpatched, padded, instructionCells_cons, Option.map_some, Option.map_some,
        Option.bind_some, patched?_singleton_append t hlen, DeferredBranch.word?]
      cases Instruction.wordAt? t s.pc (.branch condition label) with
      | none => rfl
      | some word' =>
        simp [padded, instructionCells_append, instructionCells_cons,
          length_of_directWords?_eq_some config hdirect, ← h.filled.pc_eq]

/-- **Writing an instruction appends its direct encoding.** -/
theorem emit (h : Drafted config t is s) (hbelow : s.symbols.Below t) {line : SourceLine}
    {i : SymbolicInstruction} (hemit : Session.emit line i s = .ok () u) :
    Drafted config t (is ++ [i]) u ∧ s.SameRest u := by
  obtain ⟨hroom, hcases⟩ := Session.emit_eq_ok_iff.1 hemit
  rw [h.filled.config_eq] at hroom hcases
  rcases hcases with ⟨word, hword, rfl⟩ | ⟨condition, label, word, rfl, -, -, rfl⟩
  · exact ⟨h.append_of_wordAt? hroom (wordAt?_of_below hbelow hword), rfl⟩
  · exact ⟨h.append_of_deferred hroom line word, rfl⟩

/-- An instruction that has a word can be written. -/
theorem exists_emit (h : Drafted config t is s) (hbelow : s.symbols.Below t) (line : SourceLine)
    {i : SymbolicInstruction} (hroom : s.pc.toNat + span config i < UInt32.size)
    (hword : (i.wordAt? t s.pc).isSome) : ∃ u, Session.emit line i s = .ok () u := by
  obtain ⟨word, hword⟩ := Option.isSome_iff_exists.1 hword
  simp only [Session.emit_eq_ok_iff, h.filled.config_eq]
  cases i with
  | branch condition label =>
    cases hget : s.symbols.get? label with
    | none =>
      obtain ⟨zero, hzero⟩ := Session.encode_branch_zero condition
      exact ⟨_, hroom, .inr ⟨condition, label, zero, rfl, hget, hzero, rfl⟩⟩
    | some binding =>
      refine ⟨_, hroom, .inl ⟨word, ?_, rfl⟩⟩
      rw [Instruction.wordAt?, Instruction.located?, SymbolTable.code?, hbelow label binding hget]
        at hword
      rwa [Instruction.wordAt?, Instruction.located?, SymbolTable.code?, hget]
  | _ => exact ⟨_, hroom, .inl ⟨word, hword, rfl⟩⟩

/-- **Writing a list of instructions appends their direct encoding.** -/
theorem emitAll (h : Drafted config t is s) (hbelow : s.symbols.Below t) {line : SourceLine}
    {js : List SymbolicInstruction} (hemit : Session.emitAll line js s = .ok () u) :
    Drafted config t (is ++ js) u ∧ s.SameRest u := by
  induction js generalizing is s with
  | nil =>
    obtain ⟨⟩ := hemit
    exact ⟨by rwa [List.append_nil], rfl⟩
  | cons j js ih =>
    rw [Session.emitAll, bind_eq_ok_iff] at hemit
    obtain ⟨_, v, hemit, hrest⟩ := hemit
    obtain ⟨hv, hsame⟩ := h.emit hbelow hemit
    have hsymbols : v.symbols = s.symbols := by rw [hsame]
    obtain ⟨hu, hsame'⟩ := ih hv (hsymbols ▸ hbelow) hrest
    refine ⟨by rwa [List.append_assoc, List.singleton_append] at hu, ?_⟩
    rw [Session.SameRest, hsame', hsame]

/-- A list of instructions that have words can be written. -/
theorem exists_emitAll (h : Drafted config t is s) (hbelow : s.symbols.Below t) (line : SourceLine)
    {js : List SymbolicInstruction}
    (hroom : config.textStart.toNat + wordCount config (is ++ js) < UInt32.size)
    (hwords : (directWords? config t config.textStart (is ++ js)).isSome) :
    ∃ u, Session.emitAll line js s = .ok () u := by
  induction js generalizing is s with
  | nil => exact ⟨s, rfl⟩
  | cons j js ih =>
    have hword : (j.wordAt? t s.pc).isSome := by
      rw [directWords?_isSome_iff, placed_append, ← h.filled.pc_eq] at hwords
      exact hwords (s.pc, j) (List.mem_append_right _ (List.mem_cons_self ..))
    have hspan : s.pc.toNat + span config j < UInt32.size := by
      rw [h.filled.toNat_pc]
      simp only [wordCount_append, wordCount_cons] at hroom
      omega
    obtain ⟨v, hemit⟩ := h.exists_emit hbelow line hspan hword
    obtain ⟨hv, hsame⟩ := h.emit hbelow hemit
    have hsymbols : v.symbols = s.symbols := by rw [hsame]
    obtain ⟨u, hrest⟩ := ih hv (hsymbols ▸ hbelow) (by rwa [List.append_assoc])
      (by rwa [List.append_assoc])
    exact ⟨u, bind_eq_ok_iff.2 ⟨(), v, hemit, hrest⟩⟩

end Drafted

end FlaglessAsm
