import FlaglessAsm.Proofs.DataAccess
import FlaglessAsm.Proofs.LineParts

/-!
# Immediates in source text

A source line has at most one immediate: the last operand of an instruction, or the offset behind
the base in a memory operand.  Blanks may stand around its number.  The number is read the same way
everywhere; a number that is not a 64-bit one is refused with its text.

## What is here

* `literalValue?`, `readImmediate_of_literalValue?`: the number of a literal, however large.
* `ImmediateUse`, `ImmediateUse.Written`: what a line does with its immediate, and how its operands
  are written.
* `readOperand_offsetText`, `readOperand_offsetText_marked`: a memory operand with an offset.
-/

set_option autoImplicit false

namespace FlaglessAsm

open Text

/-! ## Literals -/

/-- The number that a literal without surrounding blanks stands for, however large it is. -/
def literalValue? : List Char → Option Int
  | '-' :: s => (magnitudeDigits? (trimLeft s)).map fun m => -m
  | s => magnitudeDigits? s

section
variable {s : List Char} {v : Int}

theorem magnitude?_of_magnitudeDigits? (h : magnitudeDigits? s = some v) :
    (magnitude? s = some v ∧ fitsSigned 128 v = true) ∨
      (magnitude? s = none ∧ fitsSigned 128 v = false) := by
  rw [magnitude?, h, Option.filter_some]
  cases fitsSigned 128 v with
  | true => exact .inl ⟨rfl, rfl⟩
  | false => exact .inr ⟨rfl, rfl⟩

/-- A `-` changes the sign of a 128-bit number, or the number is too large for an immediate. -/
theorem opposite_eq_neg_or {m : Int} (h : fitsSigned 128 m = true) :
    opposite m = -m ∨ (fitsSigned 64 (opposite m) = false ∧ fitsSigned 64 (-m) = false) := by
  obtain ⟨hlow, hhigh⟩ := fitsSigned_iff.1 h
  rcases Int.lt_or_eq_of_le hlow with hlow | rfl
  · exact .inl (opposite_eq_neg hlow (Int.le_of_lt hhigh))
  · exact .inr ⟨by decide, by decide⟩

/-- A literal has its number, unless that is too large for an immediate.  Then the literal is
refused or has another number that is too large. -/
theorem literal?_of_literalValue? (h : literalValue? s = some v) :
    literal? s = some v ∨
      ((∀ w, literal? s = some w → fitsSigned 64 w = false) ∧ fitsSigned 64 v = false) := by
  have hwide {m : Int} (hm : fitsSigned 128 m = false) (hv : v = m ∨ v = -m) :
      fitsSigned 64 v = false := by
    refine Bool.eq_false_iff.2 fun hfits => Bool.eq_false_iff.1 hm ?_
    rw [fitsSigned_iff] at hfits ⊢
    omega
  by_cases hminus : ∃ t, s = '-' :: t
  · obtain ⟨t, rfl⟩ := hminus
    obtain ⟨m, hm, rfl⟩ := Option.map_eq_some_iff.1 h
    have hliteral : literal? ('-' :: t) = (magnitude? (trimLeft t)).map opposite := rfl
    rw [hliteral]
    rcases magnitude?_of_magnitudeDigits? hm with ⟨hsome, hm⟩ | ⟨hnone, hm⟩
    · rw [hsome, Option.map_some]
      rcases opposite_eq_neg_or hm with heq | ⟨hopposite, hneg⟩
      · exact .inl (congrArg some heq)
      · exact .inr ⟨fun w hw => Option.some.inj hw ▸ hopposite, hneg⟩
    · rw [hnone, Option.map_none]
      exact .inr ⟨nofun, hwide hm (.inr rfl)⟩
  · have hvalue : literalValue? s = magnitudeDigits? s := by
      unfold literalValue?
      split
      · next t => exact absurd ⟨t, rfl⟩ hminus
      · rfl
    have hliteral : literal? s = magnitude? s := by
      unfold literal?
      split
      · next t => exact absurd ⟨t, rfl⟩ hminus
      · rfl
    rw [hvalue] at h
    rw [hliteral]
    rcases magnitude?_of_magnitudeDigits? h with ⟨hsome, -⟩ | ⟨hnone, hm⟩
    · exact .inl hsome
    · rw [hnone]
      exact .inr ⟨nofun, hwide hm (.inl rfl)⟩

/-- An immediate is read if it is a 64-bit number, and refused with its text otherwise. -/
theorem readImmediate_of_literalValue? (h : literalValue? (trim s) = some v) :
    readImmediate s
      = if fitsSigned 64 v then .ok v else .error (.badNumber (String.ofList (trim s))) := by
  rw [readImmediate, readNumber]
  rcases literal?_of_literalValue? h with hsome | ⟨hother, hwide⟩
  · rw [hsome]
  · rw [hwide]
    cases hliteral : literal? (trim s) with
    | none => rfl
    | some w => simp [hother w hliteral]

end

/-! ## Uses of an immediate -/

/-- What a source instruction does with its immediate. -/
inductive ImmediateUse where
  /-- Adds it to a register, or subtracts it. -/
  | sum (minus : Bool) (rd rn : Register)
  /-- Copies it to a register. -/
  | move (rd : Register)
  /-- Shifts a register by it. -/
  | shift (rd rn : Register)
  /-- Compares a register with it. -/
  | compare (r : Register)
  /-- Loads or stores a register at a base plus it. -/
  | offset (access : Access) (value base : Register)
  /-- Loads or stores a register after it is added to the base. -/
  | before (access : Access) (value base : Register)
  /-- Loads or stores a register before it is added to the base. -/
  | after (access : Access) (value base : Register)

/-- The text of a memory operand with an offset. -/
def offsetText (base gap number : List Char) : List Char :=
  '[' :: (base ++ ',' :: (gap ++ '#' :: (number ++ [']'])))

namespace ImmediateUse

/-- The operation of a source instruction that uses its immediate like this. -/
def operation : ImmediateUse → Operation
  | .sum false _ _ => .add
  | .sum true _ _ => .sub
  | .move _ => .mov
  | .shift .. => .lsl
  | .compare _ => .cmp
  | .offset access _ _ | .before access _ _ | .after access _ _ => access.operation

/-- How the operands are written, the number being `s`. -/
inductive Written (s : List Char) : ImmediateUse → List (List Char) → Prop
  | sum {a b : List Char} {rd rn : Register} (minus : Bool)
      (ha : readOperand a = .ok (.register rd)) (hb : readOperand b = .ok (.register rn)) :
      Written s (.sum minus rd rn) [a, b, '#' :: s]
  | sumInPlace {a : List Char} {rd : Register} (minus : Bool)
      (ha : readOperand a = .ok (.register rd)) : Written s (.sum minus rd rd) [a, '#' :: s]
  | move {a : List Char} {rd : Register} (ha : readOperand a = .ok (.register rd)) :
      Written s (.move rd) [a, '#' :: s]
  | shift {a b : List Char} {rd rn : Register} (ha : readOperand a = .ok (.register rd))
      (hb : readOperand b = .ok (.register rn)) : Written s (.shift rd rn) [a, b, '#' :: s]
  | compare {a : List Char} {r : Register} (ha : readOperand a = .ok (.register r)) :
      Written s (.compare r) [a, '#' :: s]
  | offset {a b gap : List Char} {value base : Register} (access : Access)
      (ha : readOperand a = .ok (.register value)) (hb : readRegister b = .ok base)
      (hgap : ∀ c ∈ gap, isBlank c = true) (hs : ',' ∉ s) :
      Written s (.offset access value base) [a, offsetText b gap s]
  | before {a b gap tail : List Char} {value base : Register} (access : Access)
      (ha : readOperand a = .ok (.register value)) (hb : readRegister b = .ok base)
      (hgap : ∀ c ∈ gap, isBlank c = true) (htail : ∀ c ∈ tail, isBlank c = true) (hs : ',' ∉ s) :
      Written s (.before access value base) [a, offsetText b gap s ++ (tail ++ ['!'])]
  | after {a b : List Char} {value base : Register} (access : Access)
      (ha : readOperand a = .ok (.register value))
      (hb : readOperand b = .ok (.memory base none false)) :
      Written s (.after access value base) [a, b, '#' :: s]

end ImmediateUse

/-! ## Reading the operands -/

section
variable {s b gap : List Char} {base : Register}

theorem readImmediate_trimRight (s : List Char) :
    readImmediate (trimRight s) = readImmediate s := by
  obtain ⟨blanks, hs, hblanks⟩ := exists_trimRight_append s
  have htrim : trim (trimRight s) = trim s := by
    rw [← trim_append_of_blank hblanks, ← hs]
  rw [readImmediate, readImmediate, readNumber, readNumber, htrim]

/-- The inside of the brackets of a memory operand with an offset. -/
theorem readAddressing_offset (hb : readRegister b = .ok base)
    (hgap : ∀ c ∈ gap, isBlank c = true) (hs : ',' ∉ s) (whole : List Char) (writeback : Bool) :
    readAddressing whole (b ++ ',' :: (gap ++ '#' :: s)) writeback
      = (readImmediate s).map fun v => .memory base (some v) writeback := by
  have hoffset : ',' ∉ gap ++ '#' :: s := by
    rw [List.mem_append, List.mem_cons, not_or, not_or]
    exact ⟨fun hmem => absurd (hgap _ hmem) (by decide), by decide, hs⟩
  have hbase : ',' ∉ b := not_mem_of_readRegister (by decide) (by decide) (by decide) hb
  have hpieces : splitWhere (· == ',') (b ++ ',' :: (gap ++ '#' :: s)) = [b, gap ++ '#' :: s] := by
    have hjoin : b ++ ',' :: (gap ++ '#' :: s) = [','].intercalate [b, gap ++ '#' :: s] := by
      simp [List.intercalate_cons_cons]
    rw [splitWhere_eq_splitOnP, hjoin]
    exact List.splitOn_intercalate ',' (by simp [hbase, hoffset]) (List.cons_ne_nil b _)
  rw [readAddressing, hpieces, List.map_cons, List.map_singleton,
    trim_append_cons hgap (by decide)]
  dsimp only
  rw [readRegister_trim, hb]
  show (readImmediate (trimRight s) >>= fun v => pure (Operand.memory base (some v) writeback)) = _
  rw [readImmediate_trimRight]
  cases readImmediate s <;> rfl

theorem readOperand_offsetText (hb : readRegister b = .ok base)
    (hgap : ∀ c ∈ gap, isBlank c = true) (hs : ',' ∉ s) :
    readOperand (offsetText b gap s)
      = (readImmediate s).map fun v => .memory base (some v) false := by
  obtain ⟨whole, hwhole⟩ := readMemory_bracketed (b ++ ',' :: (gap ++ '#' :: s)) false
  have htext : offsetText b gap s = '[' :: (b ++ ',' :: (gap ++ '#' :: s) ++ [']']) := by
    simp [offsetText]
  rw [htext, ← readAddressing_offset hb hgap hs whole false, ← hwhole]
  rfl

theorem readOperand_offsetText_marked {tail : List Char} (hb : readRegister b = .ok base)
    (hgap : ∀ c ∈ gap, isBlank c = true) (htail : ∀ c ∈ tail, isBlank c = true) (hs : ',' ∉ s) :
    readOperand (offsetText b gap s ++ (tail ++ ['!']))
      = (readImmediate s).map fun v => .memory base (some v) true := by
  have htext : offsetText b gap s ++ (tail ++ ['!'])
      = '[' :: (b ++ ',' :: (gap ++ '#' :: s) ++ ']' :: (tail ++ ['!'])) := by
    simp [offsetText]
  rw [htext]
  exact (readMemory_marked _ htail).trans (readAddressing_offset hb hgap hs _ true)

end

end FlaglessAsm
