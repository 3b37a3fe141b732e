import FlaglessAsm.Proofs.LineParts

/-!
# Lists of operands read back

Every operand that source text can name is read back from its text, and lists of any length are read
back from the texts of their operands, however many blanks stand around them.  Commas separate
operands, entries of register lists and parts of memory operands alike; that the texts of operands
nest (`Spells.nested`) keeps the last two out of the way of the first.

## What is here

* `forall_ascii`, `isToken_of_isIdentifier`: names of labels have no punctuation.
* `spells_movingBase`, `spells_registerList`, `spells_label`: the texts of the remaining operands.
* `Operand.IsWritable`, `spells_render`: the operands that source text can name.
* `Spaced`, `WrittenOperands`: how a list of operands is written.
* `operands_read_back`: lists of operands are read back from their text.
-/

set_option autoImplicit false

namespace FlaglessAsm

open Text

/-! ## Names of labels -/

/-- What holds of the first 128 characters holds of every character below them. -/
theorem Text.forall_ascii {P : Char → Prop} (h : ∀ n < 128, P (Char.ofNat n)) {c : Char}
    (hc : c.toNat < 128) : P c := by
  have hchar := h c.toNat hc
  rwa [Char.ofNat_toNat] at hchar

theorem toNat_lt_of_isIdentifierRest {c : Char} (h : isIdentifierRest c = true) :
    c.toNat < 128 := by
  delta isIdentifierRest Char.isAlphanum Char.isAlpha Char.isUpper Char.isLower Char.isDigit at h
  simp only [Bool.or_eq_true, Bool.and_eq_true, decide_eq_true_eq, beq_iff_eq, ge_iff_le,
    UInt32.le_iff_toNat_le] at h
  rcases h with ((h | rfl) | rfl) | rfl
  · change ((65 ≤ c.toNat ∧ c.toNat ≤ 90) ∨ (97 ≤ c.toNat ∧ c.toNat ≤ 122)) ∨
      (48 ≤ c.toNat ∧ c.toNat ≤ 57) at h
    omega
  all_goals decide

theorem isMark_of_isIdentifierRest {c : Char} (h : isIdentifierRest c = true) :
    isMark c = false ∧ c ≠ '!' ∧ c ≠ '#' := by
  have hascii : ∀ n < 128, isIdentifierRest (Char.ofNat n) = true →
      isMark (Char.ofNat n) = false ∧ Char.ofNat n ≠ '!' ∧ Char.ofNat n ≠ '#' := by
    decide
  exact forall_ascii (P := fun c => isIdentifierRest c = true →
    isMark c = false ∧ c ≠ '!' ∧ c ≠ '#') hascii (toNat_lt_of_isIdentifierRest h) h

theorem isIdentifierRest_of_isIdentifierStart {c : Char} (h : isIdentifierStart c = true) :
    isIdentifierRest c = true := by
  delta isIdentifierRest Char.isAlphanum
  simp only [isIdentifierStart, Bool.or_eq_true] at h ⊢
  tauto

/-- The name of a label has no punctuation in it. -/
theorem isToken_of_isIdentifier {s : List Char} (h : isIdentifier s = true) :
    IsToken s ∧ '!' ∉ s ∧ '#' ∉ s := by
  obtain _ | ⟨c, cs⟩ := s
  · cases h
  rw [isIdentifier, Bool.and_eq_true, List.all_eq_true] at h
  have hrest : ∀ d ∈ c :: cs, isIdentifierRest d = true :=
    List.forall_mem_cons.2 ⟨isIdentifierRest_of_isIdentifierStart h.1, h.2⟩
  have hmark (d : Char) (hd : d ∈ c :: cs) := isMark_of_isIdentifierRest (hrest d hd)
  exact ⟨⟨List.cons_ne_nil c cs, fun d hd => (hmark d hd).1⟩,
    fun hmem => (hmark _ hmem).2.1 rfl, fun hmem => (hmark _ hmem).2.2 rfl⟩

/-! ## Operands -/

theorem spells_movingBase {r : Register} (h : r.IsNameable) :
    Spells (r.name.toList ++ ['!']) (.movingBase r) := by
  have htoken : IsToken (r.name.toList ++ ['!']) := by
    refine ⟨List.append_ne_nil_of_left_ne_nil (isToken_name r).1 _, fun c hc => ?_⟩
    rcases List.mem_append.1 hc with hc | hc
    · exact (isToken_name r).2 c hc
    · rw [List.mem_singleton.1 hc]
      decide
  have hall : ∀ code : Fin 16, (Register.mk code).IsNameable →
      (readOperand ((Register.mk code).name.toList ++ ['!'])).toOption
        = some (.movingBase ⟨code⟩) := by
    decide +kernel
  exact htoken.spells (toOption_eq_some_iff.1 (hall r.code h))

/-- The name of a label is read as a label, unless it is the name of a register. -/
theorem spells_label {name : String} (hname : isIdentifier name.toList = true)
    (hregister : Register.ofName? name.toList = none) : Spells name.toList (.label name) := by
  obtain ⟨htoken, hmoving, hnumber⟩ := isToken_of_isIdentifier hname
  refine htoken.spells ?_
  unfold readOperand
  split
  · next heq => exact absurd (heq ▸ List.mem_cons_self ..) hnumber
  · next heq => exact absurd (heq ▸ List.mem_cons_self ..) (htoken.not_mem (c := '[') (by decide))
  · next heq =>
    exact absurd (heq ▸ List.mem_cons_self ..) (htoken.not_mem (c := '\x7b') (by decide))
  · rw [stripLast?_of_not_mem hmoving, hregister]
    simp [hname]

section
variable {registers : List Register}

theorem readRegisterList_commaSeparated (hne : registers ≠ [])
    (h : ∀ r ∈ registers, r.IsNameable) :
    readRegisterList (commaSeparated (registers.map renderRegister) ++ ['\x7d'])
      = .ok (.registerList registers) := by
  have htokens : ∀ s ∈ registers.map renderRegister, IsToken s :=
    List.forall_mem_map.2 fun r _ => isToken_name r
  have hentries : ((splitWhere (· == ',') (commaSeparated (registers.map renderRegister))).map
      trim).filter (fun name => !name.isEmpty) = registers.map renderRegister := by
    rw [map_trim_splitWhere (by simpa using hne) htokens, List.filter_eq_self]
    intro s hs
    simpa using (htokens s hs).1
  have hread : (registers.map renderRegister).mapM readRegister = .ok registers := by
    rw [mapM_eq_ok_iff, List.forall₂_map_left_iff, List.forall₂_same]
    exact fun r hr => readRegister_name (h r hr)
  rw [readRegisterList, stripLast?_concat]
  dsimp only
  rw [hentries, hread]
  obtain ⟨r, registers, rfl⟩ := List.exists_cons_of_ne_nil hne
  rfl

theorem spells_registerList (hne : registers ≠ []) (h : ∀ r ∈ registers, r.IsNameable) :
    Spells (Operand.render (.registerList registers)) (.registerList registers) where
  tight := ⟨⟨_, _, rfl, by decide⟩, ⟨_, _, rfl, by decide⟩⟩
  nested := by
    refine .bracketed .curly (nested_commaSeparated (by simpa using hne) ?_) .nil
    exact List.forall_mem_map.2 fun r _ => (isToken_name r).nested.mono
  colon_not_mem := by
    have hinner : ':' ∉ commaSeparated (registers.map renderRegister) :=
      not_mem_commaSeparated (by decide) (by simpa using hne)
        (List.forall_mem_map.2 fun r _ => (isToken_name r).not_mem (by decide))
    simp [Operand.render, hinner, Bracket.opening, Bracket.closing]
  read_eq := readRegisterList_commaSeparated hne h

end

/-! ## Operands that can be written -/

/-- The operands that source text can name: registers other than `r0` and those of the assembler,
64-bit numbers, register lists that are not empty, and labels that are not called like a
register. -/
def Operand.IsWritable : Operand → Prop
  | .register r | .movingBase r => r.IsNameable
  | .immediate value => -2 ^ 63 ≤ value ∧ value < 2 ^ 63
  | .memory base offset _ => base.IsNameable ∧ ∀ value ∈ offset, -2 ^ 63 ≤ value ∧ value < 2 ^ 63
  | .registerList registers => registers ≠ [] ∧ ∀ r ∈ registers, r.IsNameable
  | .label name => isIdentifier name.toList = true ∧
      ∀ r : Register, name.toList.map Char.toLower ≠ r.name.toList

theorem ofName?_eq_none {s : List Char} (h : ∀ r : Register, s.map Char.toLower ≠ r.name.toList) :
    Register.ofName? s = none := by
  refine List.find?_eq_none.2 fun r _ => ?_
  simpa using (h r).symm

/-- Every operand that can be written is read back from its text. -/
theorem spells_render {o : Operand} (h : o.IsWritable) : Spells o.render o := by
  cases o with
  | register r => exact spells_register h
  | movingBase r => exact spells_movingBase h
  | immediate value =>
    have hfits : fitsSigned 64 value = true := fitsSigned_iff.2 h
    obtain ⟨hlow, hhigh⟩ := h
    exact spells_immediate (isToken_decimal value) (literal?_decimal (by omega)) hfits
  | memory base offset writeback =>
    exact spells_memory h.1 (fun v hv => fitsSigned_iff.2 (h.2 v hv)) writeback
  | registerList registers => exact spells_registerList h.1 h.2
  | label name => exact spells_label h.1 (ofName?_eq_none h.2)

/-! ## Lists of operands -/

/-- A text with blanks around it. -/
def Spaced (text piece : List Char) : Prop :=
  ∃ before after, (∀ c ∈ before, isBlank c = true) ∧ (∀ c ∈ after, isBlank c = true) ∧
    piece = before ++ text ++ after

/-- How a list of operands is written: their texts with blanks around them and commas in between. -/
inductive WrittenOperands : List Operand → List Char → Prop
  | nil {s : List Char} (h : ∀ c ∈ s, isBlank c = true) : WrittenOperands [] s
  | singleton {o : Operand} {s : List Char} (h : Spaced o.render s) : WrittenOperands [o] s
  | cons {o p : Operand} {operands : List Operand} {s t : List Char} (h : Spaced o.render s)
      (hrest : WrittenOperands (p :: operands) t) :
      WrittenOperands (o :: p :: operands) (s ++ ',' :: t)

section
variable {s piece : List Char} {o : Operand} {operands : List Operand}

/-- A blank is neither a bracket nor a comma. -/
theorem isPlain_of_isBlank {c : Char} (h : isBlank c = true) :
    Bracket.ofOpening? c = none ∧ Bracket.ofClosing? c = none ∧ c ≠ ',' := by
  have hne {d : Char} (hd : isBlank d = false) : c ≠ d := by
    rintro rfl
    exact absurd h (by simp [hd])
  refine ⟨?_, ?_, hne (by decide)⟩
  · rw [Bracket.ofOpening?, if_neg (hne (by decide)), if_neg (hne (by decide))]
  · rw [Bracket.ofClosing?, if_neg (hne (by decide)), if_neg (hne (by decide))]

theorem nested_of_blank (h : ∀ c ∈ s, isBlank c = true) : Nested false s := by
  induction s with
  | nil => exact .nil
  | cons c s ih =>
    rw [List.forall_mem_cons] at h
    obtain ⟨hopening, hclosing, hcomma⟩ := isPlain_of_isBlank h.1
    exact .cons hopening hclosing (fun hc => absurd hc hcomma) (ih h.2)

theorem Spaced.nested {text : List Char} (h : Spaced text piece) (htext : Nested false text) :
    Nested false piece := by
  obtain ⟨before, after, hbefore, hafter, rfl⟩ := h
  exact ((nested_of_blank hbefore).append htext).append (nested_of_blank hafter)

theorem Spaced.trim_eq_trim {text : List Char} (h : Spaced text piece) :
    trim piece = trim text := by
  obtain ⟨before, after, hbefore, hafter, rfl⟩ := h
  rw [trim_append_of_blank hafter, trim, trimLeft, List.dropWhile_append_of_pos hbefore]
  rfl

theorem Spaced.trim_eq {text : List Char} (h : Spaced text piece) (htext : Tight text) :
    trim piece = text :=
  h.trim_eq_trim.trans htext.trim_eq

/-- A list that is not empty is written as pieces between commas. -/
theorem WrittenOperands.exists_pieces (h : WrittenOperands (o :: operands) s) :
    ∃ pieces, pieces ≠ [] ∧ s = [','].intercalate pieces ∧
      List.Forall₂ (fun o piece => Spaced (Operand.render o) piece) (o :: operands) pieces := by
  generalize hos : o :: operands = os at h
  induction h generalizing o operands with
  | nil => cases hos
  | @singleton o s hspaced =>
    exact ⟨[s], List.cons_ne_nil s [], (List.intercalate_singleton ..).symm, .cons hspaced .nil⟩
  | @cons o p operands s t hspaced _ ih =>
    obtain ⟨pieces, hne, rfl, hpieces⟩ := ih rfl
    obtain ⟨piece, pieces, rfl⟩ := List.exists_cons_of_ne_nil hne
    refine ⟨s :: piece :: pieces, List.cons_ne_nil s _, ?_, .cons hspaced hpieces⟩
    rw [List.intercalate_cons_cons, List.append_assoc, List.singleton_append]

/-- Between the commas stand the texts of the operands, without commas outside brackets. -/
theorem trim_and_nested_of_spaced {pieces : List (List Char)}
    (h : List.Forall₂ (fun o piece => Spaced (Operand.render o) piece) operands pieces)
    (hspells : ∀ o ∈ operands, Spells o.render o) :
    pieces.map trim = operands.map Operand.render ∧ ∀ piece ∈ pieces, Nested false piece := by
  induction h with
  | nil => exact ⟨rfl, List.forall_mem_nil _⟩
  | cons hspaced _ ih =>
    rw [List.forall_mem_cons] at hspells
    obtain ⟨htrim, hnested⟩ := ih hspells.2
    refine ⟨?_, List.forall_mem_cons.2 ⟨hspaced.nested hspells.1.nested, hnested⟩⟩
    rw [List.map_cons, List.map_cons, hspaced.trim_eq hspells.1.tight, htrim]

theorem readOperands_of_blank (h : ∀ c ∈ s, isBlank c = true) : readOperands s = .ok [] := by
  have hpieces : topLevelPieces s = .ok [s] := by
    have hloop : topLevelLoop ([','].intercalate [s]) [] [] [] = .ok [s] :=
      topLevelLoop_intercalate (List.cons_ne_nil s [])
        (List.forall_mem_singleton.2 (nested_of_blank h))
    rwa [List.intercalate_singleton] at hloop
  have hsplit : splitOperands s = .ok [] := by
    rw [splitOperands, hpieces]
    dsimp only
    rw [List.map_singleton, trim_of_blank h, if_pos rfl]
  rw [readOperands, hsplit]
  rfl

end

/-- **Operands are read back from their text.**  Every list of operands that source text can name is
read from its text, with any blanks around the operands. -/
theorem operands_read_back {operands : List Operand} (hoperands : ∀ o ∈ operands, o.IsWritable)
    {s : List Char} (hs : WrittenOperands operands s) : readOperands s = .ok operands := by
  cases operands with
  | nil =>
    cases hs with
    | nil hblank => exact readOperands_of_blank hblank
  | cons o operands =>
    have hspells : ∀ p ∈ o :: operands, Spells p.render p :=
      fun p hp => spells_render (hoperands p hp)
    obtain ⟨pieces, hne, rfl, hspaced⟩ := hs.exists_pieces
    obtain ⟨htrim, hnested⟩ := trim_and_nested_of_spaced hspaced hspells
    rw [readOperands, splitOperands_intercalate ?_ hne hnested, htrim]
    · refine mapM_eq_ok_iff.2 ?_
      rw [List.forall₂_map_left_iff, List.forall₂_same]
      exact fun p hp => (hspells p hp).read_eq
    · rw [htrim]
      exact fun heq => (hspells o (List.mem_cons_self ..)).tight.ne_nil (List.cons.inj heq).1

/-- One operand of every form. -/
def everyForm : List Operand :=
  [ .register .lr, .immediate (-2 ^ 63), .memory .fp (some (-8)) true, .memory .sp none false,
    .movingBase .sp, .registerList [.fp, .lr, .fp], .label "R12" ]

/-- The text of `everyForm`, with blanks around some of the operands. -/
def everyFormText : List Char :=
  " lr ,#-9223372036854775808,\t[fp, #-8]! ,[sp],sp!, \x7bfp, lr, fp\x7d,R12 ".toList

/-- The operands of every form are read back. -/
theorem operands_read_back_of_everyForm : (∀ o ∈ everyForm, o.IsWritable) ∧
    WrittenOperands everyForm everyFormText ∧ readOperands everyFormText = .ok everyForm := by
  have hwritable : ∀ o ∈ everyForm, o.IsWritable := by
    have hlabel : Operand.IsWritable (.label "R12") := by
      refine ⟨rfl, fun ⟨code⟩ => ?_⟩
      revert code
      decide
    obtain ⟨hsp, hfp, hlr⟩ : Register.sp.IsNameable ∧ Register.fp.IsNameable ∧
        Register.lr.IsNameable := by
      decide
    simp only [everyForm, List.forall_mem_cons]
    exact ⟨hlr, ⟨by omega, by omega⟩, ⟨hfp, by simp⟩, ⟨hsp, by simp⟩, hsp,
      ⟨List.cons_ne_nil _ _, by simp [hfp, hlr]⟩, hlabel, List.forall_mem_nil _⟩
  have hwritten : WrittenOperands everyForm everyFormText := by
    have hblank : ∀ c ∈ [' '], isBlank c = true := List.all_eq_true.1 rfl
    have htab : ∀ c ∈ ['\t'], isBlank c = true := List.all_eq_true.1 rfl
    have hnone : ∀ c ∈ [], isBlank c = true := List.forall_mem_nil _
    exact .cons ⟨_, _, hblank, hblank, rfl⟩ <| .cons ⟨_, _, hnone, hnone, rfl⟩ <|
      .cons ⟨_, _, htab, hblank, rfl⟩ <| .cons ⟨_, _, hnone, hnone, rfl⟩ <|
      .cons ⟨_, _, hnone, hnone, rfl⟩ <| .cons ⟨_, _, hblank, hnone, rfl⟩ <|
      .singleton ⟨_, _, hnone, hblank, rfl⟩
  exact ⟨hwritable, hwritten, operands_read_back hwritable hwritten⟩

end FlaglessAsm
