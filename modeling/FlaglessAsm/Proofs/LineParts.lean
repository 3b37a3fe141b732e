import FlaglessAsm.Proofs.OperandText
import Mathlib.Data.List.DropRight

/-!
# The parts of an instruction line

An instruction line is a mnemonic with a list of operands behind it, and each operand is read from a
text of its own.  The registers of an operand are named by tokens of that text: the text itself, the
text in front of a `!`, the text behind an opening bracket, or the entries of a list.

## What is here

* `SourceLine.HasParts`, `SourceLine.HasParts.read_eq`: the mnemonic of a line and the texts of its
  operands, and the statement they make.
* `Operand.tokens`, `forall₂_tokens`: the tokens that name the registers of an operand.
* `namedRegisters`, `registerTokens`, `forall₂_registerTokens`: the same for a list of operands.
* `exists_token_of_sourceZero`: which token names the register that stands in for `r0`.
-/

set_option autoImplicit false

namespace FlaglessAsm

open Text

/-! ## Mnemonic and operands -/

/-- A line starts with a mnemonic, and goes on with the texts of its operands. -/
structure SourceLine.HasParts (line : SourceLine) (mnemonic : Mnemonic)
    (texts : List (List Char)) : Prop where
  notLabel : stripLast? ':' (trim line.text.toList) = none
  find : Mnemonic.find? ((trim line.text.toList).takeWhile fun c => !isBlank c) = some mnemonic
  split : splitOperands (trim ((trim line.text.toList).dropWhile fun c => !isBlank c)) = .ok texts

section
variable {line : SourceLine} {mnemonic : Mnemonic} {texts : List (List Char)}
  {operands : List Operand}

/-- The statement of a line is put together from its operands. -/
theorem SourceLine.HasParts.read_eq (h : line.HasParts mnemonic texts)
    (hword : mnemonic.operation ≠ .word) :
    Statement.read line = (((texts.mapM readOperand).map (Statement.instruction mnemonic)).mapError
      Cause.operand).mapError (AsmError.onLine line) := by
  have hoperands : readOperands (trim ((trim line.text.toList).dropWhile fun c => !isBlank c))
      = texts.mapM readOperand := by
    rw [readOperands, h.split]
    rfl
  rw [Statement.read, Statement.readText, h.notLabel]
  dsimp only
  rw [h.find]
  dsimp only
  rw [Statement.readBody, if_neg hword, hoperands]

theorem SourceLine.HasParts.read_eq_ok (h : line.HasParts mnemonic texts)
    (hword : mnemonic.operation ≠ .word)
    (hread : List.Forall₂ (fun text o => readOperand text = .ok o) texts operands) :
    Statement.read line = .ok (.instruction mnemonic operands) := by
  rw [h.read_eq hword, mapM_eq_ok_iff.2 hread]
  rfl

theorem SourceLine.HasParts.read_eq_error (h : line.HasParts mnemonic texts)
    (hword : mnemonic.operation ≠ .word) {e : OperandError}
    (hread : texts.mapM readOperand = .error e) :
    Statement.read line = .error (.onLine line (.operand e)) := by
  rw [h.read_eq hword, hread]
  rfl

/-- Every line that is read as an instruction has parts. -/
theorem exists_hasParts_of_read (h : Statement.read line = .ok (.instruction mnemonic operands)) :
    ∃ texts, line.HasParts mnemonic texts ∧ mnemonic.operation ≠ .word ∧
      List.Forall₂ (fun text o => readOperand text = .ok o) texts operands := by
  rw [Statement.read, mapError_eq_ok_iff, Statement.readText] at h
  split at h
  · dsimp only at h
    split at h <;> cases h
  · next hlabel =>
    dsimp only at h
    split at h
    · cases h
    · next m hfind =>
      rw [mapError_eq_ok_iff, Statement.readBody] at h
      split at h
      · obtain ⟨_, -, ⟨⟩⟩ := map_eq_ok_iff.1 h
      · next hword =>
        obtain ⟨os, hos, hstatement⟩ := map_eq_ok_iff.1 h
        obtain ⟨rfl, rfl⟩ := Statement.instruction.inj hstatement
        obtain ⟨texts, hsplit, hread⟩ := except_bind_eq_ok_iff.1 hos
        exact ⟨texts, ⟨hlabel, hfind, hsplit⟩, hword, mapM_eq_ok_iff.1 hread⟩

end

/-! ## Trimmed text -/

section
variable {s : List Char} {c : Char}

theorem trim_trim (s : List Char) : trim (trim s) = trim s := by
  have hleft : trimLeft (trim s) = trim s := by
    rw [trim]
    cases h : trimLeft s with
    | nil => rfl
    | cons c rest =>
      have hc : isBlank c = false := by
        have hhead := List.head?_dropWhile_not isBlank s
        rw [← trimLeft, h] at hhead
        simpa using hhead
      rw [trimRight_cons hc, trimLeft, List.dropWhile_cons_of_neg (by simp [hc])]
  rw [trim, hleft, trim, trimRight, trimRight, List.reverse_reverse, List.dropWhile_idempotent]

/-- Trimming only takes off blanks. -/
theorem mem_trim_of_mem (hc : c ∈ s) (hblank : isBlank c = false) : c ∈ trim s := by
  have hleft : c ∈ trimLeft s := by
    rw [← List.takeWhile_append_dropWhile (p := isBlank) (l := s)] at hc
    refine (List.mem_append.1 hc).resolve_left fun hmem => ?_
    exact absurd (List.mem_takeWhile_imp hmem) (by simp [hblank])
  obtain ⟨t, ht, hblanks⟩ := exists_trimRight_append (trimLeft s)
  rw [ht] at hleft
  refine (List.mem_append.1 hleft).resolve_right fun hmem => ?_
  exact absurd (hblanks c hmem) (by simp [hblank])

theorem stripLast?_eq_some_iff {t : List Char} : stripLast? c s = some t ↔ s = t ++ [c] := by
  constructor
  · intro h
    rw [stripLast?] at h
    split at h
    · next hlast =>
      obtain ⟨front, rfl⟩ := List.getLast?_eq_some_iff.1 hlast
      rw [List.dropLast_concat, Option.some_inj] at h
      rw [h]
    · cases h
  · rintro rfl
    exact stripLast?_concat c t

/-- The first piece of a text ends at the first separator. -/
theorem head?_splitWhere (p : Char → Bool) (s : List Char) :
    (splitWhere p s).head? = some (s.takeWhile fun c => !p c) := by
  induction s with
  | nil => rfl
  | cons c s ih =>
    by_cases hc : p c = true
    · simp [splitWhere_cons_pos hc, hc]
    · simp [splitWhere_cons_neg (Bool.eq_false_iff.2 hc), hc, ih]

end

/-! ## Names of registers -/

section
variable {s : List Char} {r : Register}

theorem toLower_of_ofName?_eq_some (h : Register.ofName? s = some r) :
    s.map Char.toLower = r.name.toList := by
  have hname := List.find?_some h
  exact (beq_iff_eq.1 hname).symm

/-- Only the name `r0`, in either case, is read as the register that stands in for it. -/
theorem toLower_of_readRegister_eq_sourceZero (h : readRegister s = .ok .sourceZero) :
    (trim s).map Char.toLower = ['r', '0'] := by
  rw [readRegister] at h
  split at h
  · cases h
  · next q hq =>
    split at h
    · next hzero =>
      rw [toLower_of_ofName?_eq_some hq, hzero]
      rfl
    · split at h
      · cases h
      · next hreserved =>
        obtain rfl := Except.ok.inj h
        exact absurd rfl hreserved

theorem readRegister_trim (s : List Char) : readRegister (trim s) = readRegister s := by
  rw [readRegister, readRegister, trim_trim]

/-- There is no comma and no bracket in the name of a register. -/
theorem not_mem_of_readRegister {c : Char} (hmark : isMark c = true) (hblank : isBlank c = false)
    (hlower : c.toLower = c) (h : readRegister s = .ok r) : c ∉ s := by
  intro hmem
  rw [readRegister] at h
  split at h
  · cases h
  · next q hq =>
    have hname := List.mem_map_of_mem (f := Char.toLower) (mem_trim_of_mem hmem hblank)
    rw [toLower_of_ofName?_eq_some hq, hlower] at hname
    exact (isToken_name q).not_mem hmark hname

end

/-! ## Tokens of operands -/

/-- The parts of the text of an operand that name its registers. -/
def Operand.tokens (text : List Char) : Operand → List (List Char)
  | .register _ => [trim text]
  | .movingBase _ => [trim text.dropLast]
  | .memory .. => [trim (text.tail.takeWhile fun c => c != ',' && c != ']')]
  | .registerList _ =>
    ((splitWhere (· == ',') text.tail.dropLast).map trim).filter fun name => !name.isEmpty
  | .immediate _ | .label _ => []

/-- A token without blanks around it is read as a register. -/
def NamesRegister (token : List Char) (r : Register) : Prop :=
  trim token = token ∧ readRegister token = .ok r

/-- The registers that a list of operands names, in order. -/
def namedRegisters (operands : List Operand) : List Register :=
  operands.flatMap Operand.registers

/-- The tokens that name the registers of a list of operands, in order. -/
def registerTokens (texts : List (List Char)) (operands : List Operand) : List (List Char) :=
  (List.zipWith Operand.tokens texts operands).flatten

section
variable {text : List Char} {o : Operand}

/-- The base of a memory operand ends at the first comma or at the closing bracket. -/
theorem takeWhile_append_bracket {inner : List Char}
    (h : ']' ∉ inner.takeWhile fun c => !(c == ',')) (rest : List Char) :
    (inner ++ ']' :: rest).takeWhile (fun c => c != ',' && c != ']')
      = inner.takeWhile fun c => !(c == ',') := by
  induction inner with
  | nil => rfl
  | cons c inner ih =>
    by_cases hc : c = ','
    · simp [hc]
    · have hbeq : (c == ',') = false := beq_eq_false_iff_ne.2 hc
      rw [List.takeWhile_cons_of_pos (by simp [hbeq]), List.mem_cons, not_or] at h
      rw [List.cons_append, List.takeWhile_cons_of_pos (by simp [hc, Ne.symm h.1]),
        List.takeWhile_cons_of_pos (by simp [hbeq]), ih h.2]

theorem exists_of_readAddressing {whole inner : List Char} {writeback : Bool}
    (h : readAddressing whole inner writeback = .ok o) :
    ∃ base offset, o = .memory base offset writeback ∧
      readRegister (inner.takeWhile fun c => !(c == ',')) = .ok base := by
  have hfirst : ((splitWhere (· == ',') inner).map trim).head?
      = some (trim (inner.takeWhile fun c => !(c == ','))) := by
    rw [List.head?_map, head?_splitWhere]
    rfl
  rw [← readRegister_trim]
  unfold readAddressing at h
  split at h
  · cases h
  · next base hpieces =>
    rw [hpieces] at hfirst
    obtain rfl := Option.some.inj hfirst
    obtain ⟨r, hr, ⟨⟩⟩ := except_bind_eq_ok_iff.1 h
    exact ⟨r, none, rfl, hr⟩
  · next base offset hpieces =>
    rw [hpieces] at hfirst
    obtain rfl := Option.some.inj hfirst
    obtain ⟨r, hr, hrest⟩ := except_bind_eq_ok_iff.1 h
    obtain ⟨v, -, ⟨⟩⟩ := except_bind_eq_ok_iff.1 hrest
    exact ⟨r, some v, rfl, hr⟩
  · obtain ⟨r, -, hrest⟩ := except_bind_eq_ok_iff.1 h
    obtain ⟨v, -, ⟨⟩⟩ := except_bind_eq_ok_iff.1 hrest

/-- A memory operand has its base behind its opening bracket. -/
theorem exists_of_readMemory (h : readMemory text = .ok o) :
    ∃ inner rest writeback, text = '[' :: (inner ++ ']' :: rest) ∧
      readAddressing text inner writeback = .ok o := by
  unfold readMemory at h
  dsimp only at h
  split at h
  · next rest hbody =>
    split at h
    · next inner hinner =>
      rw [stripLast?_eq_some_iff] at hinner
      subst hinner
      refine ⟨inner, ?_⟩
      cases hstrip : stripLast? '!' text with
      | none =>
        rw [hstrip] at hbody h
        exact ⟨[], false, by simpa using hbody, h⟩
      | some body =>
        rw [hstrip] at hbody h
        rw [stripLast?_eq_some_iff] at hstrip
        obtain ⟨blanks, hblanks, -⟩ := exists_trimRight_append body
        refine ⟨blanks ++ ['!'], true, ?_, h⟩
        dsimp only at hbody
        rw [hstrip, hblanks, hbody]
        simp
    · cases h
  · cases h

/-- **Each register of an operand is named by a token of its text.** -/
theorem forall₂_tokens (h : readOperand text = .ok o) :
    List.Forall₂ NamesRegister (o.tokens text) o.registers := by
  have hsingle {token : List Char} {r : Register} (hr : readRegister token = .ok r) :
      List.Forall₂ NamesRegister [trim token] [r] :=
    .cons ⟨trim_trim token, (readRegister_trim token).trans hr⟩ .nil
  unfold readOperand at h
  split at h
  · obtain ⟨value, -, rfl⟩ := map_eq_ok_iff.1 h
    exact .nil
  · obtain ⟨inner, rest, writeback, htext, haddressing⟩ := exists_of_readMemory h
    obtain ⟨base, offset, rfl, hbase⟩ := exists_of_readAddressing haddressing
    have hbracket := not_mem_of_readRegister (c := ']') (by decide) (by decide) (by decide) hbase
    refine hsingle ?_
    rw [htext, List.tail_cons, takeWhile_append_bracket hbracket]
    exact hbase
  · next rest =>
    unfold readRegisterList at h
    split at h
    · cases h
    · next inner hinner =>
      rw [stripLast?_eq_some_iff] at hinner
      obtain ⟨registers, hregisters, hrest⟩ := except_bind_eq_ok_iff.1 h
      split at hrest
      · cases hrest
      · obtain rfl := Except.ok.inj hrest
        show List.Forall₂ _ (List.filter _ (List.map trim (splitWhere _ rest.dropLast))) _
        rw [hinner, List.dropLast_concat]
        refine (List.forall₂_and_left _ _).2 ⟨fun name hname => ?_, mapM_eq_ok_iff.1 hregisters⟩
        obtain ⟨entry, -, rfl⟩ := List.mem_map.1 (List.mem_filter.1 hname).1
        exact trim_trim entry
  · split at h
    · next base hbase =>
      rw [stripLast?_eq_some_iff] at hbase
      obtain ⟨r, hr, rfl⟩ := map_eq_ok_iff.1 h
      refine hsingle ?_
      rwa [hbase, List.dropLast_concat]
    · split at h
      · obtain ⟨r, hr, rfl⟩ := map_eq_ok_iff.1 h
        exact hsingle hr
      · split at h
        · cases h
          exact .nil
        · cases h

theorem forall₂_registerTokens {texts : List (List Char)} {operands : List Operand}
    (h : List.Forall₂ (fun text o => readOperand text = .ok o) texts operands) :
    List.Forall₂ NamesRegister (registerTokens texts operands) (namedRegisters operands) := by
  induction h with
  | nil => exact .nil
  | cons htext _ ih => exact List.rel_append (forall₂_tokens htext) ih

end

/-- The name `r0` stands wherever the register is named that stands in for it. -/
theorem exists_token_of_sourceZero {texts : List (List Char)} {operands : List Operand}
    (h : List.Forall₂ (fun text o => readOperand text = .ok o) texts operands) {j : Nat}
    (hj : (namedRegisters operands)[j]? = some .sourceZero) :
    ∃ token, (registerTokens texts operands)[j]? = some token ∧
      token.map Char.toLower = ['r', '0'] := by
  obtain ⟨hlen, hall⟩ := List.forall₂_iff_get.1 (forall₂_registerTokens h)
  obtain ⟨hlt, hr⟩ := List.getElem?_eq_some_iff.1 hj
  obtain ⟨htrim, hread⟩ := hall j (by omega) hlt
  have hlower := toLower_of_readRegister_eq_sourceZero (hread.trans (congrArg Except.ok hr))
  rw [htrim] at hlower
  exact ⟨_, List.getElem?_eq_getElem (by omega), hlower⟩

end FlaglessAsm
