import FlaglessAsm.Proofs.Assembly
import FlaglessAsm.Proofs.WellFormed

/-!
# Instruction words by position

A program writes its instruction words one behind the other, so a word is known by its position: the
number of words in front of it.  The word of an instruction stands where the words of the
instructions in front of it end, and no-ops fill the positions up to the next instruction.

## What is here

* `Program.word?`: the instruction word at a position.
* `directWords?_append_eq_some_iff`, `directWords?_cons_eq_some_iff`: the words of lists of
  instructions, taken apart.
* `exists_of_sourceInstructions_eq`: an instruction comes from the prologue or from a statement.
* `decode_of_wordAt?_branch`, `exists_label_of_decode`: the word of a branch decodes to a branch,
  and no other word does.
* `Assembled.getElem?_instructions`: a word and its address.
* `Assembled.word?_of_eq_append`, `Assembled.exists_of_word?_eq_some`: the word of an instruction
  stands at its position, and a word that is no no-op is the word of an instruction.
* `Assembled.word?_between`: the words between two instructions.
* `Assembled.exists_of_get?_eq_code`: a code label and the position it names.
-/

set_option autoImplicit false

namespace FlaglessAsm

/-- The instruction word at a position. -/
def Program.word? (p : Program) (k : Nat) : Option Word :=
  p.instructions[k]?.map Prod.snd

theorem Program.word?_eq (p : Program) (k : Nat) :
    p.word? k = (p.instructions.toList.map Prod.snd)[k]? := by
  rw [Program.word?, List.getElem?_map, Array.getElem?_toList]

/-! ## Words of lists -/

section
variable {config : Config} {t : SymbolTable} {pc : Address}

theorem directWords?_append_eq_some_iff {is js : List SymbolicInstruction} {words : List Word} :
    directWords? config t pc (is ++ js) = some words ↔ ∃ us vs,
      directWords? config t pc is = some us ∧
      directWords? config t (pc + UInt32.ofNat (wordCount config is)) js = some vs ∧
      words = us ++ vs := by
  rw [directWords?_append, Option.bind_eq_some_iff]
  refine exists_congr fun us => ?_
  simp only [Option.map_eq_some_iff, eq_comm (a := words), exists_and_left]

theorem directWords?_cons_eq_some_iff {i : SymbolicInstruction} {is : List SymbolicInstruction}
    {words : List Word} :
    directWords? config t pc (i :: is) = some words ↔ ∃ word vs, i.wordAt? t pc = some word ∧
      directWords? config t (pc + UInt32.ofNat (span config i)) is = some vs ∧
      words = padded config i word ++ vs := by
  rw [directWords?, Option.bind_eq_some_iff]
  refine exists_congr fun word => ?_
  simp only [Option.map_eq_some_iff, eq_comm (a := words), exists_and_left]

/-- A word that is no no-op is the word of an instruction, at the position of that instruction. -/
theorem exists_of_getElem?_of_directWords? {is : List SymbolicInstruction} {words : List Word}
    (h : directWords? config t pc is = some words) {k : Nat} {w : Word} (hk : words[k]? = some w)
    (hw : w ≠ nopWord) :
    ∃ is₁ i is₂, is = is₁ ++ i :: is₂ ∧ k = wordCount config is₁ ∧
      i.wordAt? t (pc + UInt32.ofNat k) = some w := by
  induction is generalizing pc words k with
  | nil =>
    obtain ⟨⟩ := h
    simp at hk
  | cons i is ih =>
    obtain ⟨word, rest, hword, hrest, rfl⟩ := directWords?_cons_eq_some_iff.1 h
    rw [List.getElem?_append, length_padded] at hk
    by_cases hlt : k < span config i
    · -- Of the words of the first instruction, only the first one is no no-op.
      rw [if_pos hlt, padded] at hk
      cases k with
      | zero =>
        obtain rfl : word = w := Option.some_inj.1 hk
        exact ⟨[], i, is, rfl, rfl, by simpa using hword⟩
      | succ k =>
        have hmem := List.mem_of_getElem? (List.getElem?_cons_succ.symm.trans hk)
        exact absurd (List.eq_of_mem_replicate hmem) hw
    · rw [if_neg hlt] at hk
      obtain ⟨is₁, j, is₂, rfl, hposition, hj⟩ := ih hrest hk
      have hk' : k = span config i + (k - span config i) := by omega
      refine ⟨i :: is₁, j, is₂, rfl, by rw [wordCount_cons]; omega, ?_⟩
      rw [hk', UInt32.ofNat_add, ← UInt32.add_assoc]
      exact hj

/-- What holds of the no-op and of the word of every instruction holds of every word. -/
theorem forall_mem_of_directWords? {is : List SymbolicInstruction} {words : List Word}
    (h : directWords? config t pc is = some words) {P : Word → Prop} (hnop : P nopWord)
    (hword : ∀ i ∈ is, ∀ a w, i.wordAt? t a = some w → P w) : ∀ w ∈ words, P w := by
  induction is generalizing pc words with
  | nil =>
    obtain ⟨⟩ := h
    simp
  | cons i is ih =>
    obtain ⟨word, rest, hi, hrest, rfl⟩ := directWords?_cons_eq_some_iff.1 h
    intro w hw
    rcases List.mem_append.1 hw with hw | hw
    · rcases List.mem_cons.1 hw with rfl | hw
      · exact hword i (List.mem_cons_self ..) pc w hi
      · rw [List.eq_of_mem_replicate hw]
        exact hnop
    · exact ih hrest (fun j hj => hword j (List.mem_cons_of_mem _ hj)) w hw

end

/-! ## Instructions and the statements they come from -/

/-- An element of a concatenation comes from one of its parts. -/
theorem exists_of_flatMap_eq_append_cons {α β : Type} {f : α → List β} {l : List α}
    {m n : List β} {b : β} (h : l.flatMap f = m ++ b :: n) :
    ∃ front a rest xs ys, l = front ++ a :: rest ∧ f a = xs ++ b :: ys ∧
      m = front.flatMap f ++ xs := by
  induction l generalizing m with
  | nil => simp at h
  | cons a l ih =>
    have hbehind {m' : List β} (hm : m = f a ++ m') (h' : l.flatMap f = m' ++ b :: n) :
        ∃ front a' rest xs ys, a :: l = front ++ a' :: rest ∧ f a' = xs ++ b :: ys ∧
          m = front.flatMap f ++ xs := by
      obtain ⟨front, a', rest, xs, ys, rfl, ha', rfl⟩ := ih h'
      exact ⟨a :: front, a', rest, xs, ys, rfl, ha', by rw [hm, List.flatMap_cons]; simp⟩
    rw [List.flatMap_cons] at h
    rcases List.append_eq_append_iff.1 h with ⟨m', hm, h'⟩ | ⟨xs, ha, h'⟩
    · exact hbehind hm h'
    · cases xs with
      | nil =>
        have hrest : l.flatMap f = [] ++ b :: n := h'.symm
        exact hbehind (by simpa using ha.symm) hrest
      | cons x xs =>
        obtain ⟨rfl, -⟩ := List.cons.inj h'
        exact ⟨[], a, l, m, xs, rfl, ha, rfl⟩

section
variable (config : Config) (t : SymbolTable)

/-- An instruction that does not belong to the prologue comes from a statement. -/
theorem exists_of_sourceInstructions_eq {ss : List SourceStatement}
    {is₁ is₂ : List SymbolicInstruction} {i : SymbolicInstruction}
    (h : sourceInstructions config t ss = is₁ ++ i :: is₂) (hi : i ∉ startInstructions config) :
    ∃ front s rest js₁ js₂, ss = front ++ s :: rest ∧ s.instructions t = js₁ ++ i :: js₂ ∧
      is₁ = sourceInstructions config t front ++ js₁ := by
  have hsource {m : List SymbolicInstruction} (hm : is₁ = startInstructions config ++ m)
      (h' : ss.flatMap (·.instructions t) = m ++ i :: is₂) :
      ∃ front s rest js₁ js₂, ss = front ++ s :: rest ∧ s.instructions t = js₁ ++ i :: js₂ ∧
        is₁ = sourceInstructions config t front ++ js₁ := by
    obtain ⟨front, s, rest, js₁, js₂, hss, hs, rfl⟩ := exists_of_flatMap_eq_append_cons h'
    exact ⟨front, s, rest, js₁, js₂, hss, hs, by rw [hm, sourceInstructions, List.append_assoc]⟩
  rw [sourceInstructions] at h
  rcases List.append_eq_append_iff.1 h with ⟨m, hm, h'⟩ | ⟨m, hstart, h'⟩
  · exact hsource hm h'
  · cases m with
    | nil =>
      have hrest : ss.flatMap (·.instructions t) = [] ++ i :: is₂ := h'.symm
      exact hsource (by simpa using hstart.symm) hrest
    | cons j m =>
      obtain ⟨rfl, -⟩ := List.cons.inj h'
      exact absurd (by simp [hstart]) hi

theorem isBranch_of_mem_startInstructions {i : SymbolicInstruction}
    (h : i ∈ startInstructions config) : i.isBranch = false := by
  rw [startInstructions] at h
  split at h
  · simp only [Session.prologue, List.mem_cons, List.not_mem_nil, or_false] at h
    rcases h with rfl | rfl | rfl <;> rfl
  · simp at h

theorem position_le_append (front more : List SourceStatement) :
    position config t front ≤ position config t (front ++ more) := by
  rw [position, position, sourceInstructions_append, wordCount_append]
  exact Nat.le_add_right _ _

end

/-! ## Words of branches -/

section
variable {t : SymbolTable} {pc : Address} {w : Word}

/-- The word of a branch decodes to a branch to the place of its label. -/
theorem decode_of_wordAt?_branch {condition : Condition} {label : String}
    (h : Instruction.wordAt? t pc (.branch condition label) = some w) :
    ∃ target, t.code? label = some target ∧
      decode w = some (.branch condition (Instruction.displacement target pc)) := by
  obtain ⟨located, hlocated, hencode⟩ := Option.bind_eq_some_iff.1 h
  obtain ⟨target, hcode, rfl⟩ := Option.map_eq_some_iff.1 hlocated
  obtain ⟨hrange, hw⟩ := Instruction.encode_eq_ok_iff.1 (toOption_eq_some_iff.1 hencode)
  exact ⟨target, hcode, (decode_branch hrange hw).2⟩

/-- Only the words of branches decode to branches. -/
theorem exists_label_of_decode {i : SymbolicInstruction} (h : i.wordAt? t pc = some w)
    {condition : Condition} {d : Int} (hdecode : decode w = some (.branch condition d)) :
    ∃ label, i = .branch condition label := by
  obtain ⟨located, hlocated, hencode⟩ := Option.bind_eq_some_iff.1 h
  have hdecode' := decode_of_encode_eq_ok (toOption_eq_some_iff.1 hencode)
  rw [hdecode, Option.some_inj] at hdecode'
  by_cases hnop : w = nopWord
  · simp [hnop] at hdecode'
  · rw [if_neg hnop] at hdecode'
    subst hdecode'
    cases i with
    | branch condition' label =>
      obtain ⟨target, -, hbranch⟩ := Option.map_eq_some_iff.1 hlocated
      obtain ⟨rfl, -⟩ := Instruction.branch.inj hbranch
      exact ⟨label, rfl⟩
    | _ => simp [Instruction.located?] at hlocated

theorem decode_nopWord : decode nopWord = some .nop := rfl

end

/-! ## Words of programs -/

/-- The elements of the middle part of a list. -/
theorem exists_mem_of_append {α : Type} {l m n : List α} {j : Nat} (hl : l.length ≤ j)
    (hm : j < l.length + m.length) : ∃ x ∈ m, (l ++ (m ++ n))[j]? = some x := by
  have hlt : j - l.length < m.length := by omega
  refine ⟨m.get ⟨j - l.length, hlt⟩, List.get_mem .., ?_⟩
  rw [List.getElem?_append_right hl, List.getElem?_append_left hlt]
  exact List.getElem?_eq_getElem hlt

section
variable {config : Config} {ss : List SourceStatement} {p : Program}

/-- A word of the program and the address that it is written to. -/
theorem Assembled.getElem?_instructions (h : Assembled config ss p) (k : Nat) :
    p.instructions[k]? = (p.word? k).map (config.textStart + UInt32.ofNat k, ·) := by
  obtain ⟨halves, words, -, -, hlist⟩ := h.words_eq
  have hinstructions := Program.toList_instructions hlist
  rw [Program.word?, ← Array.getElem?_toList, hinstructions, instructionCells]
  simp only [List.getElem?_map, List.getElem?_mapIdx, Option.map_map, Function.comp_def]

/-- **The word of an instruction stands at its position.** -/
theorem Assembled.word?_of_eq_append (h : Assembled config ss p)
    {is₁ is₂ : List SymbolicInstruction} {i : SymbolicInstruction}
    (his : sourceInstructions config p.symbols ss = is₁ ++ i :: is₂) :
    ∃ w, i.wordAt? p.symbols (config.textStart + UInt32.ofNat (wordCount config is₁)) = some w ∧
      p.word? (wordCount config is₁) = some w := by
  have hwords := h.instructionWords
  rw [his] at hwords
  obtain ⟨us, vs, hus, hvs, hsplit⟩ := directWords?_append_eq_some_iff.1 hwords
  obtain ⟨w, rest, hw, -, rfl⟩ := directWords?_cons_eq_some_iff.1 hvs
  refine ⟨w, hw, ?_⟩
  rw [Program.word?_eq, hsplit, ← length_of_directWords?_eq_some config hus,
    List.getElem?_append_right (Nat.le_refl _), Nat.sub_self]
  rfl

/-- **A word that is no no-op is the word of an instruction**, at the position of that
instruction. -/
theorem Assembled.exists_of_word?_eq_some (h : Assembled config ss p) {k : Nat} {w : Word}
    (hk : p.word? k = some w) (hw : w ≠ nopWord) :
    ∃ is₁ i is₂, sourceInstructions config p.symbols ss = is₁ ++ i :: is₂ ∧
      k = wordCount config is₁ ∧
      i.wordAt? p.symbols (config.textStart + UInt32.ofNat k) = some w := by
  rw [Program.word?_eq] at hk
  exact exists_of_getElem?_of_directWords? h.instructionWords hk hw

/-- **Between two instructions stand no-ops and the words of the instructions between them.** -/
theorem Assembled.word?_between (h : Assembled config ss p)
    {is₁ js is₂ : List SymbolicInstruction} {i : SymbolicInstruction}
    (his : sourceInstructions config p.symbols ss = is₁ ++ i :: (js ++ is₂)) {k : Nat}
    (hlt : wordCount config is₁ < k) (hlt' : k < wordCount config (is₁ ++ i :: js)) :
    ∃ w, p.word? k = some w ∧
      (w = nopWord ∨ ∃ j ∈ js, ∃ a, j.wordAt? p.symbols a = some w) := by
  have hwords := h.instructionWords
  rw [his] at hwords
  obtain ⟨us, vs, hus, hvs, hsplit⟩ := directWords?_append_eq_some_iff.1 hwords
  obtain ⟨w, rest, -, hrest, rfl⟩ := directWords?_cons_eq_some_iff.1 hvs
  obtain ⟨xs, ys, hxs, -, rfl⟩ := directWords?_append_eq_some_iff.1 hrest
  have hall : ∀ x ∈ List.replicate (padding config i) nopWord ++ xs,
      x = nopWord ∨ ∃ j ∈ js, ∃ a, j.wordAt? p.symbols a = some x := by
    intro x hx
    rcases List.mem_append.1 hx with hx | hx
    · exact .inl (List.eq_of_mem_replicate hx)
    · exact forall_mem_of_directWords? hxs
        (P := fun x => x = nopWord ∨ ∃ j ∈ js, ∃ a, j.wordAt? p.symbols a = some x)
        (.inl rfl) (fun j hj a v hv => .inr ⟨j, hj, a, hv⟩) x hx
  have hus' := length_of_directWords?_eq_some config hus
  have hxs' := length_of_directWords?_eq_some config hxs
  rw [wordCount_append, wordCount_cons, span] at hlt'
  obtain ⟨x, hx, hget⟩ := exists_mem_of_append (l := us ++ [w])
    (m := List.replicate (padding config i) nopWord ++ xs) (n := ys) (j := k)
    (by simp; omega) (by simp; omega)
  refine ⟨x, ?_, hall x hx⟩
  rw [Program.word?_eq, hsplit, ← hget, padded]
  simp

/-- A code label names the position behind the statements in front of its declaration. -/
theorem Assembled.exists_of_get?_eq_code (h : Assembled config ss p) {name : String} {pc : Address}
    {k : Nat} (hget : p.symbols.get? name = some (.code pc k)) :
    ∃ front line rest, ss = front ++ ⟨line, .label name⟩ :: rest ∧
      k = position config p.symbols front ∧ pc = config.textStart + UInt32.ofNat k := by
  have hmem : name ∈ labelNames ss := (h.isSome_get?_iff name).1 (by rw [hget]; rfl)
  obtain ⟨front, line, rest, hss⟩ := mem_labelNames_iff.1 hmem
  rw [h.get?_eq, get?_labelTable_of_declared h.encodable.nodup hss, Option.some_inj,
    ← h.position_eq] at hget
  refine ⟨front, line, rest, hss, ?_⟩
  rcases hnext : nextStatement rest with _ | (_ | (_ | _) | _) <;> rw [hnext] at hget
  case some.word.value => cases hget
  case some.word.symbol => cases hget
  all_goals
    obtain ⟨hpc, hk⟩ := Binding.code.inj hget
    exact ⟨hk.symm, by rw [← hpc, ← hk]⟩

end

end FlaglessAsm
