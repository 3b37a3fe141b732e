import FlaglessAsm.Proofs.LineParts

/-!
# Reading without regard to letter case

Mnemonics, registers, hexadecimal digits and the `0x` in front of them are read in either case, and
everything that cuts a text into pieces looks at characters without case.  So all readers commute
with writing a text in lower case: what is read is the same, up to the names of labels.  A statement
that names no label is therefore read from any text with the same letters.

Errors quote the text they refuse, so they do not commute; each reader is compared by what it reads,
as `Except.toOption`.

## What is here

* `Text.lower`, and what it keeps of single characters.
* `trim_lower`, `splitWhere_lower`, `splitOperands_lower`: pieces of a text.
* `literal?_lower`, `readRegister_lower`, `readOperand_lower`: numbers, registers and operands.
* `Statement.lowered`, `readText_lower`: whole statements.
* `Statement.isNameless`, `readText_of_lower_eq`: statements that name no label.
-/

set_option autoImplicit false

namespace FlaglessAsm

open Text

/-! ## Characters -/

namespace Text

/-- A text in lower case. -/
def lower (s : List Char) : List Char :=
  s.map Char.toLower

section
variable (c : Char)

theorem toNat_toLower :
    c.toLower.toNat = if 65 ≤ c.toNat ∧ c.toNat ≤ 90 then c.toNat + 32 else c.toNat := by
  have hupper : (c.val ≥ 'A'.val ∧ c.val ≤ 'Z'.val) ↔ 65 ≤ c.toNat ∧ c.toNat ≤ 90 := by
    simp only [ge_iff_le, UInt32.le_iff_toNat_le]
    rfl
  delta Char.toLower
  split
  · next h =>
    rw [if_pos (hupper.1 h)]
    have hle := (hupper.1 h).2
    change (c.val + 32).toNat = c.val.toNat + 32
    rw [UInt32.toNat_add]
    exact Nat.mod_eq_of_lt (Nat.lt_of_le_of_lt (Nat.add_le_add_right hle 32) (by decide))
  · next h => rw [if_neg (mt hupper.2 h)]

/-- Nothing but letters becomes another character. -/
theorem toLower_eq_iff {d : Char} (hd : d.isAlpha = false) : c.toLower = d ↔ c = d := by
  have hletter : ¬ (65 ≤ d.toNat ∧ d.toNat ≤ 90) ∧ ¬ (97 ≤ d.toNat ∧ d.toNat ≤ 122) := by
    delta Char.isAlpha Char.isUpper Char.isLower at hd
    simpa [UInt32.le_iff_toNat_le] using hd
  rw [← Char.toNat_inj, toNat_toLower, ← Char.toNat_inj]
  split <;> omega

@[simp] theorem isBlank_toLower : isBlank c.toLower = isBlank c := by
  simp only [isBlank, toNat_toLower]
  split
  · rw [Bool.eq_iff_iff]
    simp
    omega
  · rfl

@[simp] theorem digit?_toLower (radix : Nat) : digit? radix c.toLower = digit? radix c := by
  simp only [digit?, toNat_toLower, Bool.and_eq_true, decide_eq_true_eq]
  split
  · next h =>
    have hvalue : c.toNat + 32 - 0x61 + 10 = c.toNat - 0x41 + 10 := by omega
    have hleft : (if 0x30 ≤ c.toNat + 32 ∧ c.toNat + 32 ≤ 0x39 then c.toNat + 32 - 0x30
        else if 0x61 ≤ c.toNat + 32 ∧ c.toNat + 32 ≤ 0x7A then c.toNat + 32 - 0x61 + 10
        else if 0x41 ≤ c.toNat + 32 ∧ c.toNat + 32 ≤ 0x5A then c.toNat + 32 - 0x41 + 10
        else radix) = c.toNat - 0x41 + 10 := by
      rw [if_neg (by omega), if_pos (by omega), hvalue]
    rw [hleft, if_neg (by omega : ¬ (0x30 ≤ c.toNat ∧ c.toNat ≤ 0x39)),
      if_neg (by omega : ¬ (0x61 ≤ c.toNat ∧ c.toNat ≤ 0x7A))]
  · rfl

/-- Whether a character is a digit, or may stand in the name of a label, does not depend on its
case. -/
theorem class_toLower : c.toLower.isDigit = c.isDigit ∧
    isIdentifierStart c.toLower = isIdentifierStart c ∧
    isIdentifierRest c.toLower = isIdentifierRest c := by
  have hascii : ∀ n < 128, (Char.ofNat n).toLower.isDigit = (Char.ofNat n).isDigit ∧
      isIdentifierStart (Char.ofNat n).toLower = isIdentifierStart (Char.ofNat n) ∧
      isIdentifierRest (Char.ofNat n).toLower = isIdentifierRest (Char.ofNat n) := by
    decide
  by_cases hc : c.toNat < 128
  · have hchar := hascii c.toNat hc
    rwa [Char.ofNat_toNat] at hchar
  · have hlower : c.toLower = c := by
      rw [← Char.toNat_inj, toNat_toLower, if_neg (by omega)]
    rw [hlower]
    exact ⟨rfl, rfl, rfl⟩

@[simp] theorem toLower_toLower : c.toLower.toLower = c.toLower := by
  rw [← Char.toNat_inj, toNat_toLower c.toLower, toNat_toLower c, if_neg (by split <;> omega)]

end

section
variable {s t : List Char}

@[simp] theorem lower_nil : lower [] = [] := rfl

@[simp] theorem lower_cons (c : Char) : lower (c :: s) = c.toLower :: lower s := rfl

@[simp] theorem lower_eq_nil_iff : lower s = [] ↔ s = [] :=
  List.map_eq_nil_iff

theorem lower_reverse : lower s.reverse = (lower s).reverse :=
  List.map_reverse

@[simp] theorem lower_lower : lower (lower s) = lower s := by
  simp [lower, Function.comp_def]

/-- A character that is no letter stands where it stood. -/
theorem lower_eq_cons_iff {d : Char} (hd : d.isAlpha = false) :
    lower s = d :: t ↔ ∃ u, s = d :: u ∧ lower u = t := by
  simp [lower, List.map_eq_cons_iff, toLower_eq_iff _ hd]

theorem exists_lower_eq_cons_iff {d : Char} (hd : d.isAlpha = false) :
    (∃ u, lower s = d :: u) ↔ ∃ u, s = d :: u := by
  simp [lower_eq_cons_iff hd]

/-! ## Pieces -/

theorem dropWhile_lower {p : Char → Bool} (hp : ∀ c : Char, p c.toLower = p c) :
    (lower s).dropWhile p = lower (s.dropWhile p) := by
  rw [lower, List.dropWhile_map, Function.comp_def, funext hp, lower]

theorem takeWhile_lower {p : Char → Bool} (hp : ∀ c : Char, p c.toLower = p c) :
    (lower s).takeWhile p = lower (s.takeWhile p) := by
  rw [lower, List.takeWhile_map, Function.comp_def, funext hp, lower]

@[simp] theorem trimLeft_lower : trimLeft (lower s) = lower (trimLeft s) :=
  dropWhile_lower isBlank_toLower

@[simp] theorem trimRight_lower : trimRight (lower s) = lower (trimRight s) := by
  rw [trimRight, trimRight, ← lower_reverse, dropWhile_lower isBlank_toLower, lower_reverse]

@[simp] theorem trim_lower : trim (lower s) = lower (trim s) := by
  rw [trim, trim, trimLeft_lower, trimRight_lower]

theorem splitWhere_lower {p : Char → Bool} (hp : ∀ c : Char, p c.toLower = p c) (s : List Char) :
    splitWhere p (lower s) = (splitWhere p s).map lower := by
  induction s with
  | nil => rfl
  | cons c s ih =>
    cases hc : p c with
    | true =>
      rw [lower_cons, splitWhere_cons_pos ((hp c).trans hc), splitWhere_cons_pos hc, ih]
      rfl
    | false =>
      rw [lower_cons, splitWhere_cons_neg ((hp c).trans hc), splitWhere_cons_neg hc, ih]
      cases splitWhere p s <;> rfl

theorem stripLast?_lower {d : Char} (hd : d.isAlpha = false) (s : List Char) :
    stripLast? d (lower s) = (stripLast? d s).map lower := by
  have hlast : (lower s).getLast? = some d ↔ s.getLast? = some d := by
    rw [lower, List.getLast?_map, Option.map_eq_some_iff]
    simp [toLower_eq_iff _ hd]
  rw [stripLast?, stripLast?]
  simp only [hlast]
  split
  · simp [lower]
  · rfl

end
end Text

/-! ## Commas and brackets -/

@[simp] theorem Bracket.ofOpening?_toLower (c : Char) :
    Bracket.ofOpening? c.toLower = Bracket.ofOpening? c := by
  have hopening (bracket : Bracket) : c.toLower = bracket.opening ↔ c = bracket.opening :=
    toLower_eq_iff c (by cases bracket <;> rfl)
  simp only [Bracket.ofOpening?, hopening]

@[simp] theorem Bracket.ofClosing?_toLower (c : Char) :
    Bracket.ofClosing? c.toLower = Bracket.ofClosing? c := by
  have hclosing (bracket : Bracket) : c.toLower = bracket.closing ↔ c = bracket.closing :=
    toLower_eq_iff c (by cases bracket <;> rfl)
  simp only [Bracket.ofClosing?, hclosing]

theorem topLevelLoop_lower (s : List Char) (stack : List Bracket) (piece : List Char)
    (done : List (List Char)) :
    topLevelLoop (lower s) stack (lower piece) (done.map lower)
      = (topLevelLoop s stack piece done).map (List.map lower) := by
  induction s generalizing stack piece done with
  | nil =>
    cases stack with
    | nil => simp [topLevelLoop, Except.map, lower_reverse]
    | cons => rfl
  | cons c s ih =>
    have hcomma : c.toLower = ',' ↔ c = ',' := toLower_eq_iff c rfl
    have hgo (stack : List Bracket) : topLevelLoop (lower s) stack (c.toLower :: lower piece)
        (done.map lower) = (topLevelLoop s stack (c :: piece) done).map (List.map lower) :=
      ih stack (c :: piece) done
    rw [lower_cons]
    cases hopening : Bracket.ofOpening? c with
    | some bracket => simp [topLevelLoop, hopening, hgo]
    | none =>
      cases hclosing : Bracket.ofClosing? c with
      | some bracket =>
        cases stack with
        | nil => simp [topLevelLoop, hopening, hclosing, Except.map]
        | cons top rest =>
          by_cases htop : top = bracket
          · simp [topLevelLoop, hopening, hclosing, htop, hgo]
          · simp [topLevelLoop, hopening, hclosing, htop, Except.map]
      | none =>
        cases stack with
        | nil =>
          have hend : topLevelLoop (lower s) [] [] ((lower piece).reverse :: done.map lower)
              = (topLevelLoop s [] [] (piece.reverse :: done)).map (List.map lower) := by
            rw [← lower_reverse]
            exact ih [] [] (piece.reverse :: done)
          by_cases hc : c = ','
          · subst hc
            exact hend
          · simp [topLevelLoop, hopening, hclosing, hcomma, hc, hgo]
        | cons top rest => simp [topLevelLoop, hopening, hclosing, hgo]

theorem splitOperands_lower (s : List Char) :
    (splitOperands (lower s)).toOption = (splitOperands s).toOption.map (List.map lower) := by
  have hpieces : topLevelPieces (lower s) = (topLevelPieces s).map (List.map lower) :=
    topLevelLoop_lower s [] [] []
  rw [splitOperands, splitOperands, hpieces]
  cases topLevelPieces s with
  | ok pieces =>
    have htrim : (pieces.map lower).map trim = (pieces.map trim).map lower := by
      simp [Function.comp_def]
    have hblank : (pieces.map trim).map lower = [[]] ↔ pieces.map trim = [[]] := by
      simp [List.map_eq_cons_iff]
    simp only [Except.map, htrim, hblank]
    split <;> rfl
  | error e => cases e <;> rfl

/-! ## Numbers -/

section
variable (s : List Char) (radix : Nat)

theorem digitsFrom?_lower (acc : Nat) :
    digitsFrom? radix acc (lower s) = digitsFrom? radix acc s := by
  induction s generalizing acc with
  | nil => rfl
  | cons c s ih =>
    rw [lower_cons, digitsFrom?, digitsFrom?, digit?_toLower]
    cases digit? radix c with
    | none => rfl
    | some d => exact ih _

theorem digits?_lower : digits? radix (lower s) = digits? radix s := by
  cases s with
  | nil => rfl
  | cons c s => exact digitsFrom?_lower (c :: s) radix 0

theorem unsigned?_lower : unsigned? radix (lower s) = unsigned? radix s := by
  have hother {t : List Char} (h : ¬ ∃ ds, t = '+' :: ds) :
      unsigned? radix t = digits? radix t := by
    unfold unsigned?
    split
    · next ds => exact absurd ⟨ds, rfl⟩ h
    · rfl
  by_cases h : ∃ ds, s = '+' :: ds
  · obtain ⟨ds, rfl⟩ := h
    exact digits?_lower ds radix
  · rw [hother h, hother (mt (exists_lower_eq_cons_iff rfl).1 h), digits?_lower]

theorem signed?_lower : signed? radix (lower s) = signed? radix s := by
  have hother {t : List Char} (h : ¬ ∃ ds, t = '-' :: ds) :
      signed? radix t = (unsigned? radix t).map Int.ofNat := by
    unfold signed?
    split
    · next ds => exact absurd ⟨ds, rfl⟩ h
    · rfl
  by_cases h : ∃ ds, s = '-' :: ds
  · obtain ⟨ds, rfl⟩ := h
    change signed? radix ('-' :: lower ds) = _
    simp only [signed?, digits?_lower]
  · rw [hother h, hother (mt (exists_lower_eq_cons_iff rfl).1 h), unsigned?_lower]

end

section
variable (s : List Char)

theorem toLower_eq_x_iff (c : Char) : c.toLower = 'x' ↔ c = 'x' ∨ c = 'X' := by
  have hx : 'x'.toNat = 120 ∧ 'X'.toNat = 88 := ⟨rfl, rfl⟩
  rw [← Char.toNat_inj, toNat_toLower, ← Char.toNat_inj, ← Char.toNat_inj, hx.1, hx.2]
  split <;> omega

theorem magnitudeDigits?_lower : magnitudeDigits? (lower s) = magnitudeDigits? s := by
  have hother {c : Char} {t : List Char} (hdollar : c ≠ '$')
      (hx : ¬ (c = '0' ∧ ∃ d ds, t = d :: ds ∧ (d = 'x' ∨ d = 'X'))) :
      magnitudeDigits? (c :: t) = if c.isDigit then signed? 10 (c :: t) else none := by
    unfold magnitudeDigits?
    split
    · next ds h =>
      obtain ⟨rfl, rfl⟩ := List.cons.inj h
      exact absurd ⟨rfl, 'x', ds, rfl, .inl rfl⟩ hx
    · next ds h =>
      obtain ⟨rfl, rfl⟩ := List.cons.inj h
      exact absurd ⟨rfl, 'X', ds, rfl, .inr rfl⟩ hx
    · next ds h => exact absurd (List.cons.inj h).1 hdollar
    · next h =>
      obtain ⟨rfl, rfl⟩ := List.cons.inj h
      rfl
    · next h => cases h
  cases s with
  | nil => rfl
  | cons c t =>
    by_cases hdollar : c = '$'
    · subst hdollar
      exact signed?_lower t 10
    by_cases hx : c = '0' ∧ ∃ d ds, t = d :: ds ∧ (d = 'x' ∨ d = 'X')
    · obtain ⟨rfl, d, ds, rfl, rfl | rfl⟩ := hx
      · exact signed?_lower ds 16
      · exact signed?_lower ds 16
    · have hdollar' : c.toLower ≠ '$' := mt (toLower_eq_iff c rfl).1 hdollar
      have hx' : ¬ (c.toLower = '0' ∧ ∃ d ds, lower t = d :: ds ∧ (d = 'x' ∨ d = 'X')) := by
        rintro ⟨hzero, d, ds, ht, hd⟩
        obtain ⟨d, ds, rfl, rfl, rfl⟩ := List.map_eq_cons_iff.1 ht
        refine hx ⟨(toLower_eq_iff c rfl).1 hzero, d, ds, rfl, ?_⟩
        rcases hd with hd | hd
        · exact (toLower_eq_x_iff d).1 hd
        · have hlower := toLower_toLower d
          rw [hd] at hlower
          exact absurd hlower (by decide)
      rw [hother hdollar hx, lower_cons, hother hdollar' hx', (class_toLower c).1, ← lower_cons,
        signed?_lower]

theorem magnitude?_lower : magnitude? (lower s) = magnitude? s := by
  rw [magnitude?, magnitude?, magnitudeDigits?_lower]

theorem literal?_lower : literal? (lower s) = literal? s := by
  have hother {t : List Char} (h : ¬ ∃ u, t = '-' :: u) : literal? t = magnitude? t := by
    unfold literal?
    split
    · next u => exact absurd ⟨u, rfl⟩ h
    · rfl
  by_cases h : ∃ u, s = '-' :: u
  · obtain ⟨u, rfl⟩ := h
    change literal? ('-' :: lower u) = _
    simp only [literal?, trimLeft_lower, magnitude?_lower]
  · rw [hother h, hother (mt (exists_lower_eq_cons_iff rfl).1 h), magnitude?_lower]

theorem readNumber_lower : (readNumber (lower s)).toOption = (readNumber s).toOption := by
  rw [readNumber, readNumber, trim_lower, literal?_lower]
  cases literal? (trim s) <;> rfl

theorem readImmediate_lower : (readImmediate (lower s)).toOption = (readImmediate s).toOption := by
  have hnumber := readNumber_lower s
  rw [readImmediate, readImmediate]
  cases h : readNumber s with
  | ok v =>
    rw [h] at hnumber
    rw [toOption_eq_some_iff.1 hnumber]
    dsimp only
    split <;> rfl
  | error e =>
    rw [h] at hnumber
    cases h' : readNumber (lower s) with
    | ok v => rw [h'] at hnumber; cases hnumber
    | error e' => rfl

end

/-! ## Operands -/

/-- An operand with the name of its label in lower case. -/
def Operand.lowered : Operand → Operand
  | .label name => .label (String.ofList (lower name.toList))
  | o => o

section
variable {ε α β γ : Type}

theorem toOption_map {x : Except ε α} {f : α → β} : (x.map f).toOption = x.toOption.map f := by
  cases x <;> rfl

theorem toOption_bind {x : Except ε α} {f : α → Except ε β} :
    (x >>= f).toOption = x.toOption.bind fun a => (f a).toOption := by
  cases x <;> rfl

/-- A list is read in parallel with another if its members are. -/
theorem toOption_mapM_map {read : α → Except ε β} {f : α → α} {g : β → β}
    (h : ∀ a, (read (f a)).toOption = (read a).toOption.map g) (as : List α) :
    ((as.map f).mapM read).toOption = (as.mapM read).toOption.map (List.map g) := by
  induction as with
  | nil => rfl
  | cons a as ih =>
    rw [List.map_cons, List.mapM_cons, List.mapM_cons, toOption_bind, toOption_bind, h]
    simp only [toOption_bind, ih]
    cases (read a).toOption with
    | none => rfl
    | some b => cases (as.mapM read).toOption <;> rfl

end

section
variable (s : List Char)

theorem ofName?_lower : Register.ofName? (lower s) = Register.ofName? s := by
  rw [Register.ofName?, Register.ofName?]
  change Register.all.find? (fun r => r.name.toList == lower (lower s)) = _
  rw [lower_lower]
  rfl

theorem readRegister_lower : (readRegister (lower s)).toOption = (readRegister s).toOption := by
  rw [readRegister, readRegister, trim_lower, ofName?_lower]
  cases Register.ofName? (trim s) with
  | none => rfl
  | some r => rfl

theorem readOffset_lower : (readOffset (lower s)).toOption = (readOffset s).toOption := by
  have hother {t : List Char} (h : ¬ ∃ u, t = '#' :: u) :
      readOffset t = .error (.shape .immediateOffset) := by
    unfold readOffset
    split
    · next u => exact absurd ⟨u, rfl⟩ h
    · rfl
  by_cases h : ∃ u, s = '#' :: u
  · obtain ⟨u, rfl⟩ := h
    exact readImmediate_lower u
  · rw [hother h, hother (mt (exists_lower_eq_cons_iff rfl).1 h)]

theorem isIdentifier_lower : isIdentifier (lower s) = isIdentifier s := by
  cases s with
  | nil => rfl
  | cons c s =>
    have hrest : (lower s).all isIdentifierRest = s.all isIdentifierRest := by
      rw [lower, List.all_map, Function.comp_def]
      simp only [(class_toLower _).2.2]
    rw [lower_cons, isIdentifier, isIdentifier, (class_toLower c).2.1, hrest]

/-- Entries between commas, trimmed. -/
theorem entries_lower : (splitWhere (· == ',') (lower s)).map trim
    = ((splitWhere (· == ',') s).map trim).map lower := by
  have hcomma (c : Char) : (c.toLower == ',') = (c == ',') := by
    rw [Bool.eq_iff_iff, beq_iff_eq, beq_iff_eq, toLower_eq_iff c rfl]
  rw [splitWhere_lower hcomma]
  simp [Function.comp_def]

theorem readAddressing_lower (whole whole' : List Char) (writeback : Bool) :
    (readAddressing whole' (lower s) writeback).toOption
      = (readAddressing whole s writeback).toOption.map Operand.lowered := by
  rw [readAddressing, readAddressing, entries_lower]
  rcases (splitWhere (· == ',') s).map trim with _ | ⟨base, _ | ⟨offset, _ | ⟨third, rest⟩⟩⟩
  · rfl
  · simp only [List.map_cons, List.map_nil, toOption_bind, Option.map_bind, readRegister_lower]
    rfl
  · simp only [List.map_cons, List.map_nil, toOption_bind, Option.map_bind, Function.comp_def,
      readRegister_lower, readOffset_lower]
    rfl
  · simp only [List.map_cons, toOption_bind, Option.map_bind, Function.comp_def, readRegister_lower,
      readOffset_lower]
    rfl

/-- A memory operand without its `!`. -/
def readBracketed (whole body : List Char) (writeback : Bool) : Except OperandError Operand :=
  match body with
  | '[' :: rest =>
    match stripLast? ']' rest with
    | some inner => readAddressing whole inner writeback
    | none => .error (.unterminated .square)
  | _ => .error (.unterminated .square)

theorem readMemory_of_marked {body : List Char} (h : stripLast? '!' s = some body) :
    readMemory s = readBracketed s (trimRight body) true := by
  rw [readMemory, h]
  rfl

theorem readMemory_of_unmarked (h : stripLast? '!' s = none) :
    readMemory s = readBracketed s s false := by
  rw [readMemory, h]
  rfl

theorem readBracketed_lower (whole whole' : List Char) (writeback : Bool) :
    (readBracketed whole' (lower s) writeback).toOption
      = (readBracketed whole s writeback).toOption.map Operand.lowered := by
  have hother {whole t : List Char} (h : ¬ ∃ rest, t = '[' :: rest) :
      readBracketed whole t writeback = .error (.unterminated .square) := by
    unfold readBracketed
    split
    · next rest => exact absurd ⟨rest, rfl⟩ h
    · rfl
  by_cases h : ∃ rest, s = '[' :: rest
  · obtain ⟨rest, rfl⟩ := h
    change (readBracketed whole' ('[' :: lower rest) writeback).toOption = _
    simp only [readBracketed, stripLast?_lower (d := ']') rfl]
    cases stripLast? ']' rest with
    | none => rfl
    | some inner => exact readAddressing_lower inner whole whole' writeback
  · rw [hother h, hother (mt (exists_lower_eq_cons_iff rfl).1 h)]
    rfl

theorem readMemory_lower :
    (readMemory (lower s)).toOption = (readMemory s).toOption.map Operand.lowered := by
  have hstrip := stripLast?_lower (d := '!') rfl s
  cases h : stripLast? '!' s with
  | none =>
    rw [h, Option.map_none] at hstrip
    rw [readMemory_of_unmarked s h, readMemory_of_unmarked _ hstrip, readBracketed_lower _ s]
  | some body =>
    rw [h, Option.map_some] at hstrip
    rw [readMemory_of_marked s h, readMemory_of_marked _ hstrip, trimRight_lower,
      readBracketed_lower _ s]

theorem listEntries_lower :
    ((splitWhere (· == ',') (lower s)).map trim).filter (fun name => !name.isEmpty)
      = (((splitWhere (· == ',') s).map trim).filter fun name => !name.isEmpty).map lower := by
  rw [entries_lower, List.filter_map]
  simp [Function.comp_def, lower]

theorem readRegisterList_lower :
    (readRegisterList (lower s)).toOption = (readRegisterList s).toOption.map Operand.lowered := by
  have hread (names : List (List Char)) :
      ((names.map lower).mapM readRegister).toOption = (names.mapM readRegister).toOption := by
    rw [toOption_mapM_map (g := id) (by simp [readRegister_lower])]
    simp
  rw [readRegisterList, readRegisterList, stripLast?_lower rfl]
  cases stripLast? '\x7d' s with
  | none => rfl
  | some inner =>
    simp only [Option.map_some, listEntries_lower, toOption_bind, Option.map_bind, hread]
    congr 1
    funext registers
    cases registers <;> rfl

/-- An operand that does not start like an immediate, a memory operand or a register list. -/
def readNamed (s : List Char) : Except OperandError Operand :=
  match stripLast? '!' s with
  | some base => (readRegister base).map .movingBase
  | none =>
    if (Register.ofName? s).isSome then (readRegister s).map .register
    else if isIdentifier s then .ok (.label (String.ofList s))
    else .error (.unparsable (String.ofList s))

theorem readOperand_of_named {c : Char} (himmediate : c ≠ '#') (hmemory : c ≠ '[')
    (hlist : c ≠ '\x7b') : readOperand (c :: s) = readNamed (c :: s) := by
  unfold readOperand
  split
  · next h => exact absurd (List.cons.inj h).1 himmediate
  · next h => exact absurd (List.cons.inj h).1 hmemory
  · next h => exact absurd (List.cons.inj h).1 hlist
  · rfl

theorem readNamed_lower :
    (readNamed (lower s)).toOption = (readNamed s).toOption.map Operand.lowered := by
  rw [readNamed, readNamed, stripLast?_lower rfl, ofName?_lower, isIdentifier_lower]
  cases stripLast? '!' s with
  | some base =>
    simp only [Option.map_some, toOption_map, readRegister_lower, Option.map_map]
    rfl
  | none =>
    simp only [Option.map_none]
    split
    · simp only [toOption_map, readRegister_lower, Option.map_map]
      rfl
    · split
      · simp [Except.toOption, Operand.lowered]
      · rfl

/-- **Operands are read without regard to case**, up to the names of labels. -/
theorem readOperand_lower :
    (readOperand (lower s)).toOption = (readOperand s).toOption.map Operand.lowered := by
  cases s with
  | nil => rfl
  | cons c s =>
    by_cases himmediate : c = '#'
    · subst himmediate
      change ((readImmediate (lower s)).map Operand.immediate).toOption
        = ((readImmediate s).map Operand.immediate).toOption.map Operand.lowered
      rw [toOption_map, toOption_map, readImmediate_lower, Option.map_map]
      rfl
    by_cases hmemory : c = '['
    · subst hmemory
      exact readMemory_lower ('[' :: s)
    by_cases hlist : c = '\x7b'
    · subst hlist
      exact readRegisterList_lower s
    · rw [readOperand_of_named s himmediate hmemory hlist, lower_cons,
        readOperand_of_named _ (mt (toLower_eq_iff c rfl).1 himmediate)
          (mt (toLower_eq_iff c rfl).1 hmemory) (mt (toLower_eq_iff c rfl).1 hlist)]
      exact readNamed_lower (c :: s)

theorem readOperands_lower :
    (readOperands (lower s)).toOption
      = (readOperands s).toOption.map (List.map Operand.lowered) := by
  rw [readOperands, readOperands, toOption_bind, toOption_bind, splitOperands_lower]
  cases (splitOperands s).toOption with
  | none => rfl
  | some texts => exact toOption_mapM_map readOperand_lower texts

end

/-! ## Statements -/

/-- The operand of a data word with the name of its label in lower case. -/
def DataOperand.lowered : DataOperand → DataOperand
  | .value v => .value v
  | .symbol name => .symbol (String.ofList (lower name.toList))

/-- A statement with the names of its labels in lower case. -/
def Statement.lowered : Statement → Statement
  | .label name => .label (String.ofList (lower name.toList))
  | .word operand => .word operand.lowered
  | .instruction mnemonic operands => .instruction mnemonic (operands.map Operand.lowered)

section
variable (s : List Char)

theorem find?_lower : Mnemonic.find? (lower s) = Mnemonic.find? s := by
  rw [Mnemonic.find?, Mnemonic.find?]
  change Mnemonic.table.find? (fun m => m.spelling.toList == lower (lower s)) = _
  rw [lower_lower]
  rfl

theorem readDataOperand_lower :
    (Statement.readDataOperand (lower s)).toOption
      = (Statement.readDataOperand s).toOption.map DataOperand.lowered := by
  have hnumber := readNumber_lower s
  rw [Statement.readDataOperand, Statement.readDataOperand, isIdentifier_lower]
  cases h : readNumber s with
  | ok v =>
    rw [h] at hnumber
    rw [toOption_eq_some_iff.1 hnumber]
    rfl
  | error e =>
    rw [h] at hnumber
    cases h' : readNumber (lower s) with
    | ok v =>
      rw [h'] at hnumber
      cases hnumber
    | error e' =>
      dsimp only
      split
      · simp [Except.toOption, DataOperand.lowered]
      · rfl

theorem readBody_lower (mnemonic : Mnemonic) :
    (Statement.readBody mnemonic (lower s)).toOption
      = (Statement.readBody mnemonic s).toOption.map Statement.lowered := by
  rw [Statement.readBody, Statement.readBody]
  split
  · rw [toOption_map, toOption_map, readDataOperand_lower, Option.map_map, Option.map_map]
    rfl
  · rw [toOption_map, toOption_map, readOperands_lower, Option.map_map, Option.map_map]
    rfl

theorem toOption_mapError {ε ε' α : Type} {x : Except ε α} {f : ε → ε'} :
    (x.mapError f).toOption = x.toOption := by
  cases x <;> rfl

/-- **Statements are read without regard to case**, up to the names of labels. -/
theorem readText_lower :
    (Statement.readText (lower s)).toOption
      = (Statement.readText s).toOption.map Statement.lowered := by
  have htake : (lower s).takeWhile (fun c => !isBlank c)
      = lower (s.takeWhile fun c => !isBlank c) :=
    takeWhile_lower (by simp)
  have hdrop : (lower s).dropWhile (fun c => !isBlank c)
      = lower (s.dropWhile fun c => !isBlank c) :=
    dropWhile_lower (by simp)
  rw [Statement.readText, Statement.readText, stripLast?_lower rfl]
  cases stripLast? ':' s with
  | some name =>
    simp only [Option.map_some, trim_lower, isIdentifier_lower]
    split
    · simp [Except.toOption, Statement.lowered]
    · rfl
  | none =>
    simp only [Option.map_none, htake, hdrop, trim_lower, find?_lower]
    cases Mnemonic.find? (s.takeWhile fun c => !isBlank c) with
    | none => rfl
    | some mnemonic => simp only [toOption_mapError, readBody_lower]

end

/-! ## Statements without labels -/

/-- Whether an operand is a label. -/
def Operand.isLabel : Operand → Bool
  | .label _ => true
  | _ => false

/-- Whether a statement names no label: a data word with a number, or an instruction whose operands
are no labels. -/
def Statement.isNameless : Statement → Bool
  | .word (.value _) => true
  | .instruction _ operands => operands.all (!·.isLabel)
  | _ => false

theorem Operand.lowered_of_isLabel_eq_false {o : Operand} (h : o.isLabel = false) :
    o.lowered = o := by
  cases o with
  | label => cases h
  | _ => rfl

theorem Operand.isLabel_lowered (o : Operand) : o.lowered.isLabel = o.isLabel := by
  cases o <;> rfl

/-- Operands without labels have no other operands with the same letters. -/
theorem eq_of_map_lowered_eq {as bs : List Operand} (has : ∀ a ∈ as, a.isLabel = false)
    (h : bs.map Operand.lowered = as.map Operand.lowered) : bs = as := by
  have hid {cs : List Operand} (hcs : ∀ c ∈ cs, c.isLabel = false) :
      cs.map Operand.lowered = cs :=
    (List.map_congr_left fun c hc => Operand.lowered_of_isLabel_eq_false (hcs c hc)).trans
      (List.map_id' cs)
  have hbs : ∀ b ∈ bs, b.isLabel = false := by
    intro b hb
    have hmem : b.lowered ∈ as.map Operand.lowered := h ▸ List.mem_map_of_mem hb
    obtain ⟨a, ha, hab⟩ := List.mem_map.1 hmem
    rw [← b.isLabel_lowered, ← hab, a.isLabel_lowered, has a ha]
  rwa [hid hbs, hid has] at h

theorem Statement.eq_of_lowered_eq {x y : Statement} (hx : x.isNameless = true)
    (h : y.lowered = x.lowered) : y = x := by
  cases x with
  | label => cases hx
  | word operand =>
    cases operand with
    | symbol => cases hx
    | value v =>
      obtain _ | (_ | _) | _ := y <;> simp_all [Statement.lowered, DataOperand.lowered]
  | instruction mnemonic operands =>
    cases y with
    | instruction mnemonic' operands' =>
      obtain ⟨rfl, hoperands⟩ := Statement.instruction.inj h
      rw [eq_of_map_lowered_eq (by simpa [Statement.isNameless] using hx) hoperands]
    | _ => cases h

/-- **A statement that names no label is read from every text with the same letters.** -/
theorem readText_of_lower_eq {s t : List Char} (hlower : lower t = lower s) {x : Statement}
    (h : Statement.readText s = .ok x) (hx : x.isNameless = true) :
    Statement.readText t = .ok x := by
  have hs := readText_lower s
  have ht := readText_lower t
  rw [hlower, hs, h] at ht
  obtain ⟨y, hy, hyx⟩ := Option.map_eq_some_iff.1 ht.symm
  rw [toOption_eq_some_iff.1 hy, Statement.eq_of_lowered_eq hx hyx]

end FlaglessAsm
