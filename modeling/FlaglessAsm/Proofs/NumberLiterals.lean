import FlaglessAsm.Proofs.LineParts
import Mathlib.Algebra.Ring.Int.Defs
import Mathlib.Data.Nat.Digits.Defs

/-!
# Which texts are number literals

A literal is written as an optional `-`, blanks, and digits: hexadecimal ones behind `0x` or `0X`,
decimal ones behind `$`, or decimal ones alone.  The reader takes a little more than that: the
digits behind `0x` and `$` are read as signed numbers, so they may have a sign of their own.
`Literal` is the grammar with that sign as a parameter, so that both languages are instances of it.

## What is here

* `Text.IsDigit`, `Text.IsNumeral`: digits of a radix and the number that a run of them stands for.
* `Sign`, `Magnitude`, `Literal`: the grammar of literals.
* `literal?_eq_some_iff`: the literals that are read are those of the grammar with any sign.
* `number_accepted_iff`: the literals that are read, and the error for any other text.
* `number_accepted_of_own_sign`: a literal that only the reader takes for one.
-/

set_option autoImplicit false

namespace FlaglessAsm

open Text

/-! ## Digits -/

namespace Text

/-- A digit of a radix and its value.  Letters count in either case. -/
def IsDigit (radix : Nat) (c : Char) (d : Nat) : Prop :=
  d < radix ∧ (c = d.digitChar ∨ c = d.digitChar.toUpper)

/-- A non-empty run of digits and the number it stands for. -/
def IsNumeral (radix : Nat) (s : List Char) (n : Nat) : Prop :=
  s ≠ [] ∧ ∃ ds, List.Forall₂ (IsDigit radix) s ds ∧ n = Nat.ofDigits radix ds.reverse

section
variable {radix : Nat} {c : Char}

theorem digit?_toUpper_digitChar :
    ∀ radix ≤ 16, ∀ d < radix, digit? radix d.digitChar.toUpper = some d := by
  decide

theorem ofNat_eq_digitChar : ∀ d < 16,
    (d < 10 → Char.ofNat (0x30 + d) = d.digitChar) ∧
    (10 ≤ d → Char.ofNat (0x61 + (d - 10)) = d.digitChar ∧
      Char.ofNat (0x41 + (d - 10)) = d.digitChar.toUpper) := by
  decide

theorem digit?_eq_some_iff (hradix : radix ≤ 16) {d : Nat} :
    digit? radix c = some d ↔ IsDigit radix c d := by
  constructor
  · intro h
    unfold digit? at h
    simp only [Option.ite_none_right_eq_some, Option.some_inj, Bool.and_eq_true,
      decide_eq_true_eq] at h
    obtain ⟨hd, h⟩ := h
    rw [h] at hd
    refine ⟨hd, ?_⟩
    obtain ⟨hdecimal, hletter⟩ := ofNat_eq_digitChar d (by omega)
    have hc {n : Nat} (hn : c.toNat = n) : c = Char.ofNat n := by
      rw [← hn, Char.ofNat_toNat]
    split at h
    · exact .inl ((hc (by omega)).trans (hdecimal (by omega)))
    · split at h
      · exact .inl ((hc (by omega)).trans (hletter (by omega)).1)
      · split at h
        · exact .inr ((hc (by omega)).trans (hletter (by omega)).2)
        · omega
  · rintro ⟨hd, rfl | rfl⟩
    · exact digit?_digitChar radix hradix d hd
    · exact digit?_toUpper_digitChar radix hradix d hd

/-- A run of digits behind others is read as the digits below them. -/
theorem digitsFrom?_eq_some_iff (hradix : radix ≤ 16) {acc n : Nat} {s : List Char} :
    digitsFrom? radix acc s = some n ↔
      ∃ ds, List.Forall₂ (IsDigit radix) s ds ∧ n = ds.foldl (fun m d => d + radix * m) acc := by
  induction s generalizing acc with
  | nil => simp [digitsFrom?, eq_comm]
  | cons c s ih =>
    rw [digitsFrom?]
    simp only [List.forall₂_cons_left_iff]
    cases hc : digit? radix c with
    | none =>
      refine ⟨fun h => (Option.some_ne_none n h.symm).elim, ?_⟩
      rintro ⟨-, ⟨d, ds, hd, -, rfl⟩, -⟩
      rw [(digit?_eq_some_iff hradix).2 hd] at hc
      cases hc
    | some d =>
      dsimp only
      rw [ih]
      constructor
      · rintro ⟨ds, hds, rfl⟩
        refine ⟨d :: ds, ⟨d, ds, (digit?_eq_some_iff hradix).1 hc, hds, rfl⟩, ?_⟩
        rw [List.foldl_cons, Nat.add_comm, Nat.mul_comm]
      · rintro ⟨-, ⟨d', ds, hd', hds, rfl⟩, rfl⟩
        obtain rfl := Option.some.inj (hc.symm.trans ((digit?_eq_some_iff hradix).2 hd'))
        refine ⟨ds, hds, ?_⟩
        rw [List.foldl_cons, Nat.add_comm, Nat.mul_comm]

/-- A run of digits is read as the number it stands for. -/
theorem digits?_eq_some_iff (hradix : radix ≤ 16) {n : Nat} {s : List Char} :
    digits? radix s = some n ↔ IsNumeral radix s n := by
  have hvalue (ds : List Nat) :
      Nat.ofDigits radix ds.reverse = ds.foldl (fun m d => d + radix * m) 0 := by
    rw [Nat.ofDigits_eq_foldr, List.foldr_reverse]
    rfl
  rw [digits?, IsNumeral, ← List.isEmpty_eq_false_iff]
  simp only [hvalue, ← digitsFrom?_eq_some_iff hradix]
  cases s.isEmpty <;> simp

end
end Text

/-! ## The grammar -/

/-- The sign that digits behind a mark may have of their own. -/
inductive Sign where
  | none
  | plus
  | minus

namespace Sign

/-- How a sign is written. -/
def text : Sign → List Char
  | .none => []
  | .plus => ['+']
  | .minus => ['-']

/-- The number with a sign and an absolute value. -/
def apply : Sign → Nat → Int
  | .minus, n => -n
  | _, n => n

end Sign

/-- The part of a literal behind its `-`, and the number it stands for.  Only digits behind `0x` and
`$` can have a sign of their own. -/
inductive Magnitude : Sign → List Char → Int → Prop
  | hex {own : Sign} {x : Char} {ds : List Char} {n : Nat} (hx : x = 'x' ∨ x = 'X')
      (h : IsNumeral 16 ds n) : Magnitude own ('0' :: x :: (own.text ++ ds)) (own.apply n)
  | dollar {own : Sign} {ds : List Char} {n : Nat} (h : IsNumeral 10 ds n) :
      Magnitude own ('$' :: (own.text ++ ds)) (own.apply n)
  | bare {ds : List Char} {n : Nat} (h : IsNumeral 10 ds n) : Magnitude .none ds n

/-- A literal without surrounding blanks, and the number it stands for.  A `-` in front of the
smallest number, which takes a sign of its own to write, changes nothing. -/
inductive Literal (own : Sign) : List Char → Int → Prop
  | plain {s : List Char} {m : Int} (h : Magnitude own s m) (hm : -2 ^ 127 ≤ m ∧ m ≤ 2 ^ 127 - 1) :
      Literal own s m
  | negative {gap s : List Char} {m : Int} (hgap : ∀ c ∈ gap, isBlank c = true)
      (h : Magnitude own s m) (hm : -2 ^ 127 < m ∧ m ≤ 2 ^ 127 - 1) :
      Literal own ('-' :: (gap ++ s)) (-m)
  | smallest {gap s : List Char} (hgap : ∀ c ∈ gap, isBlank c = true)
      (h : Magnitude own s (-2 ^ 127)) : Literal own ('-' :: (gap ++ s)) (-2 ^ 127)

/-! ## Numerals and signs -/

section
variable {radix n : Nat} {s : List Char}

theorem Text.IsNumeral.not_mem (h : IsNumeral radix s n) (hradix : radix ≤ 16) {c : Char}
    (hc : digit? 16 c = none) : c ∉ s := by
  obtain ⟨-, ds, hds, -⟩ := h
  intro hmem
  induction hds with
  | nil => cases hmem
  | cons hd _ ih =>
    rcases List.mem_cons.1 hmem with rfl | hmem
    · rw [(digit?_eq_some_iff (Nat.le_refl 16)).2 ⟨by have := hd.1; omega, hd.2⟩] at hc
      cases hc
    · exact ih hmem

theorem signed?_minus (radix : Nat) (ds : List Char) :
    signed? radix ('-' :: ds) = (digits? radix ds).map fun n => Sign.apply .minus n := by
  show Option.map _ _ = _
  cases digits? radix ds <;> rfl

theorem unsigned?_eq_some_iff (hradix : radix ≤ 16) :
    unsigned? radix s = some n ↔
      ∃ ds, (s = '+' :: ds ∨ s = ds) ∧ IsNumeral radix ds n := by
  unfold unsigned?
  split
  · next rest =>
    rw [digits?_eq_some_iff hradix]
    constructor
    · exact fun h => ⟨rest, .inl rfl, h⟩
    · rintro ⟨ds, hds | rfl, h⟩
      · exact (List.cons.inj hds).2 ▸ h
      · exact absurd (List.mem_cons_self ..) (h.not_mem hradix (c := '+') rfl)
  · next hplus =>
    rw [digits?_eq_some_iff hradix]
    constructor
    · exact fun h => ⟨s, .inr rfl, h⟩
    · rintro ⟨ds, rfl | rfl, h⟩
      · exact (hplus ds rfl).elim
      · exact h

/-- Signed digits are digits behind a sign or behind none. -/
theorem signed?_eq_some_iff (hradix : radix ≤ 16) {k : Int} :
    signed? radix s = some k ↔
      ∃ own ds n, s = Sign.text own ++ ds ∧ IsNumeral radix ds n ∧ k = own.apply n := by
  by_cases hminus : ∃ ds, s = '-' :: ds
  · obtain ⟨rest, rfl⟩ := hminus
    simp only [signed?_minus, Option.map_eq_some_iff, digits?_eq_some_iff hradix]
    constructor
    · rintro ⟨n, h, rfl⟩
      exact ⟨.minus, rest, n, rfl, h, rfl⟩
    · rintro ⟨own, ds, n, htext, h, rfl⟩
      cases own with
      | minus => exact ⟨n, (List.cons.inj htext).2 ▸ h, rfl⟩
      | plus => cases (List.cons.inj htext).1
      | none =>
        obtain rfl : '-' :: rest = ds := htext
        exact absurd (List.mem_cons_self ..) (h.not_mem hradix (c := '-') rfl)
  · have hsigned : signed? radix s = (unsigned? radix s).map Int.ofNat := by
      unfold signed?
      split
      · next ds => exact absurd ⟨ds, rfl⟩ hminus
      · rfl
    simp only [hsigned, Option.map_eq_some_iff, unsigned?_eq_some_iff hradix]
    constructor
    · rintro ⟨n, ⟨ds, rfl | rfl, h⟩, rfl⟩
      · exact ⟨.plus, ds, n, rfl, h, rfl⟩
      · exact ⟨.none, s, n, rfl, h, rfl⟩
    · rintro ⟨own, ds, n, htext, h, rfl⟩
      cases own with
      | minus => exact absurd ⟨ds, htext⟩ hminus
      | plus => exact ⟨n, ⟨ds, .inl htext, h⟩, rfl⟩
      | none => exact ⟨n, ⟨ds, .inr htext, h⟩, rfl⟩

theorem toUpper_digitChar : ∀ d < 10, d.digitChar.toUpper = d.digitChar := by
  decide

theorem exists_digitChar_of_isNumeral {c : Char} (h : IsNumeral 10 (c :: s) n) :
    ∃ d < 10, c = d.digitChar := by
  obtain ⟨-, ds, hds, -⟩ := h
  obtain ⟨d, _, ⟨hd, rfl | rfl⟩, -, -⟩ := List.forall₂_cons_left_iff.1 hds
  · exact ⟨d, hd, rfl⟩
  · exact ⟨d, hd, toUpper_digitChar d hd⟩

end

/-! ## Magnitudes -/

section
variable {own : Sign} {s : List Char} {m v : Int}

theorem magnitudeDigits?_of_isNumeral {n : Nat} (h : IsNumeral 10 s n) :
    magnitudeDigits? s = signed? 10 s := by
  have hne : s ≠ [] := h.1
  have hmark {c : Char} (hc : digit? 16 c = none) : c ∉ s := h.not_mem (by decide) hc
  unfold magnitudeDigits?
  split
  · exact absurd (by simp) (hmark (c := 'x') rfl)
  · exact absurd (by simp) (hmark (c := 'X') rfl)
  · exact absurd (by simp) (hmark (c := '$') rfl)
  · obtain ⟨d, hd, rfl⟩ := exists_digitChar_of_isNumeral h
    exact if_pos (isDigit_digitChar d hd)
  · exact absurd rfl hne

theorem magnitudeDigits?_eq_some_iff :
    magnitudeDigits? s = some m ↔ ∃ own, Magnitude own s m := by
  constructor
  · intro h
    unfold magnitudeDigits? at h
    split at h
    · obtain ⟨own, ds, n, rfl, hds, rfl⟩ := (signed?_eq_some_iff (by decide)).1 h
      exact ⟨own, .hex (.inl rfl) hds⟩
    · obtain ⟨own, ds, n, rfl, hds, rfl⟩ := (signed?_eq_some_iff (by decide)).1 h
      exact ⟨own, .hex (.inr rfl) hds⟩
    · obtain ⟨own, ds, n, rfl, hds, rfl⟩ := (signed?_eq_some_iff (by decide)).1 h
      exact ⟨own, .dollar hds⟩
    · split at h
      · next hc =>
        obtain ⟨own, ds, n, htext, hds, rfl⟩ := (signed?_eq_some_iff (by decide)).1 h
        cases own with
        | none => exact ⟨.none, .bare (htext ▸ hds)⟩
        | plus | minus =>
          -- Bare digits start with a digit, and so with no sign.
          obtain ⟨rfl, -⟩ := List.cons.inj htext
          cases hc
      · cases h
    · cases h
  · rintro ⟨own, h⟩
    cases h with
    | hex hx hds =>
      have hread := (signed?_eq_some_iff (by decide)).2 ⟨own, _, _, rfl, hds, rfl⟩
      rcases hx with rfl | rfl
      · exact hread
      · exact hread
    | dollar hds => exact (signed?_eq_some_iff (by decide)).2 ⟨own, _, _, rfl, hds, rfl⟩
    | bare hds =>
      rw [magnitudeDigits?_of_isNumeral hds]
      exact (signed?_eq_some_iff (by decide)).2 ⟨.none, _, _, rfl, hds, rfl⟩

theorem magnitude?_eq_some_iff :
    magnitude? s = some m ↔ (∃ own, Magnitude own s m) ∧ -2 ^ 127 ≤ m ∧ m ≤ 2 ^ 127 - 1 := by
  rw [magnitude?, Option.filter_eq_some_iff, magnitudeDigits?_eq_some_iff, fitsSigned_iff,
    Int.le_sub_one_iff]

/-- A magnitude starts with a character that is neither blank nor a `-`. -/
theorem Magnitude.exists_head (h : Magnitude own s m) :
    ∃ c rest, s = c :: rest ∧ isBlank c = false ∧ c ≠ '-' := by
  cases h with
  | hex => exact ⟨_, _, rfl, by decide, by decide⟩
  | dollar => exact ⟨_, _, rfl, by decide, by decide⟩
  | bare hds =>
    obtain ⟨c, rest, rfl⟩ := List.exists_cons_of_ne_nil hds.1
    obtain ⟨d, hd, rfl⟩ := exists_digitChar_of_isNumeral hds
    exact ⟨_, rest, rfl, isBlank_digitChar d (by omega), digitChar_ne_minus d (by omega)⟩

/-! ## Literals -/

/-- Blanks may stand between the `-` of a literal and its magnitude. -/
theorem literal?_minus {gap : List Char} (hgap : ∀ c ∈ gap, isBlank c = true)
    (h : Magnitude own s m) (hm : -2 ^ 127 ≤ m ∧ m ≤ 2 ^ 127 - 1) :
    literal? ('-' :: (gap ++ s)) = some (opposite m) := by
  have hmagnitude : magnitude? s = some m := magnitude?_eq_some_iff.2 ⟨⟨own, h⟩, hm⟩
  obtain ⟨c, rest, rfl, hc, -⟩ := h.exists_head
  show (magnitude? (trimLeft (gap ++ c :: rest))).map opposite = _
  rw [trimLeft_append_cons hgap hc, hmagnitude, Option.map_some]

/-- **The literals that are read are those of the grammar**, with or without a sign of their own. -/
theorem literal?_eq_some_iff : literal? s = some v ↔ ∃ own, Literal own s v := by
  constructor
  · intro h
    unfold literal? at h
    split at h
    · next rest =>
      obtain ⟨m, hm, rfl⟩ := Option.map_eq_some_iff.1 h
      obtain ⟨⟨own, hm⟩, hlow, hhigh⟩ := magnitude?_eq_some_iff.1 hm
      have hgap : ∀ c ∈ rest.takeWhile isBlank, isBlank c = true :=
        fun c hc => List.mem_takeWhile_imp hc
      rw [← List.takeWhile_append_dropWhile (p := isBlank) (l := rest)]
      rcases Int.lt_or_eq_of_le hlow with hlow | rfl
      · rw [opposite_eq_neg hlow (by omega)]
        exact ⟨own, .negative hgap hm ⟨hlow, hhigh⟩⟩
      · rw [opposite_smallest]
        exact ⟨own, .smallest hgap hm⟩
    · obtain ⟨⟨own, hm⟩, hbounds⟩ := magnitude?_eq_some_iff.1 h
      exact ⟨own, .plain hm hbounds⟩
  · rintro ⟨own, h⟩
    cases h with
    | plain hm hbounds =>
      obtain ⟨c, rest, rfl, -, hc⟩ := hm.exists_head
      have hliteral : literal? (c :: rest) = magnitude? (c :: rest) := by
        unfold literal?
        split
        · next heq => exact absurd (List.cons.inj heq).1 hc
        · rfl
      exact hliteral.trans (magnitude?_eq_some_iff.2 ⟨⟨own, hm⟩, hbounds⟩)
    | negative hgap hm hbounds =>
      rw [literal?_minus hgap hm ⟨Int.le_of_lt hbounds.1, hbounds.2⟩,
        opposite_eq_neg hbounds.1 (by omega)]
    | smallest hgap hm => rw [literal?_minus hgap hm ⟨by omega, by omega⟩, opposite_smallest]

/-- A magnitude without a sign in it has no sign of its own. -/
theorem Magnitude.of_not_mem (h : Magnitude own s m) (hplus : '+' ∉ s) (hminus : '-' ∉ s) :
    Magnitude .none s m := by
  cases own with
  | none => exact h
  | plus => cases h <;> simp [Sign.text] at hplus
  | minus => cases h <;> simp [Sign.text] at hminus

theorem Literal.of_not_mem (h : Literal own s v) (hplus : '+' ∉ s) (hminus : '-' ∉ s.tail) :
    Literal .none s v := by
  have hbehind {gap body : List Char} {m : Int} (hm : Magnitude own body m)
      (hplus : '+' ∉ '-' :: (gap ++ body)) (hminus : '-' ∉ gap ++ body) :
      Magnitude .none body m := by
    refine hm.of_not_mem (fun hmem => hplus ?_) fun hmem => hminus ?_
    · exact List.mem_cons_of_mem _ (List.mem_append_right _ hmem)
    · exact List.mem_append_right _ hmem
  cases h with
  | plain hm hbounds =>
    obtain ⟨c, rest, rfl, -, hc⟩ := hm.exists_head
    refine .plain (hm.of_not_mem hplus fun hmem => ?_) hbounds
    exact hminus ((List.mem_cons.1 hmem).resolve_left (Ne.symm hc))
  | negative hgap hm hbounds => exact .negative hgap (hbehind hm hplus hminus) hbounds
  | smallest hgap hm => exact .smallest hgap (hbehind hm hplus hminus)

theorem readNumber_eq_ok_iff : readNumber s = .ok v ↔ ∃ own, Literal own (trim s) v := by
  rw [readNumber, ← literal?_eq_some_iff]
  cases literal? (trim s) <;> simp

end

/-- **The number literals that are read.**  They are those of the grammar, in which digits behind
`0x` and `$` may have a sign of their own; where no such sign stands in a text, it is read exactly
if it is a literal without one.  Any other text is refused, with the text that was looked at. -/
theorem number_accepted_iff (s : List Char) :
    (∀ v, readNumber s = .ok v ↔ ∃ own, Literal own (trim s) v) ∧
    ('+' ∉ trim s → '-' ∉ (trim s).tail →
      ∀ v, readNumber s = .ok v ↔ Literal .none (trim s) v) ∧
    ((∀ own v, ¬ Literal own (trim s) v) →
      readNumber s = .error (.badNumber (String.ofList (trim s)))) := by
  refine ⟨fun v => readNumber_eq_ok_iff, fun hplus hminus v => ?_, fun hnone => ?_⟩
  · rw [readNumber_eq_ok_iff]
    constructor
    · rintro ⟨own, h⟩
      exact h.of_not_mem hplus hminus
    · exact fun h => ⟨.none, h⟩
  · have hliteral : literal? (trim s) = none := by
      refine Option.eq_none_iff_forall_ne_some.2 fun v hv => ?_
      obtain ⟨own, h⟩ := literal?_eq_some_iff.1 hv
      exact hnone own v h
    rw [readNumber, hliteral]

/-- A `-` behind the `$` of a literal is read, although the grammar has none there. -/
theorem number_accepted_of_own_sign :
    readNumber ['$', '-', '5'] = .ok (-5) ∧ ∀ v, ¬ Literal .none ['$', '-', '5'] v := by
  refine ⟨by decide, fun v h => ?_⟩
  cases h with
  | plain h =>
    cases h with
    | dollar hds => exact hds.not_mem (c := '-') (by decide) rfl (by simp)
    | bare hds => exact hds.not_mem (c := '-') (by decide) rfl (by simp)

end FlaglessAsm
