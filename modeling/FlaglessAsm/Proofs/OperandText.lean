import FlaglessAsm.Operand.Printer
import FlaglessAsm.Proofs.Encoding
import FlaglessAsm.Proofs.Numerals
import FlaglessAsm.Proofs.Pieces
import FlaglessAsm.Proofs.Reading

/-!
# Operands read back from their text

A list of operands is cut at its commas outside brackets.  Text whose brackets nest passes that cut
in one piece (`topLevelLoop_append`), so a list of texts that each read as one operand reads as the
list of these operands.

## What is here

* `Tight`: text without blanks at its ends, which trimming leaves alone.
* `IsToken`: a word without punctuation, such as the name of a register or a number.
* `Nested`: text whose brackets nest.
* `Spells`, `readOperands_commaSeparated`: texts that read as an operand, and lists of them.
* `spells_register`, `spells_immediate`, `spells_memory`: the texts of operands.
* `readText_statementText`: a mnemonic and the operands behind it.
-/

set_option autoImplicit false

namespace FlaglessAsm

open Text

/-! ## Text without blanks at its ends -/

/-- Text that starts and ends with a character that is not blank. -/
structure Tight (s : List Char) : Prop where
  head : ∃ c rest, s = c :: rest ∧ isBlank c = false
  last : ∃ front c, s = front ++ [c] ∧ isBlank c = false

section
variable {s t : List Char}

theorem Tight.ne_nil (h : Tight s) : s ≠ [] := by
  obtain ⟨c, rest, rfl, -⟩ := h.head
  exact List.cons_ne_nil c rest

theorem Tight.trimLeft_eq (h : Tight s) : trimLeft s = s := by
  obtain ⟨c, rest, rfl, hc⟩ := h.head
  exact List.dropWhile_cons_of_neg (by simp [hc])

theorem Tight.trimRight_eq (h : Tight s) : trimRight s = s := by
  obtain ⟨front, c, rfl, hc⟩ := h.last
  rw [trimRight, List.reverse_append, List.reverse_singleton, List.singleton_append,
    List.dropWhile_cons_of_neg (by simp [hc]), List.reverse_cons, List.reverse_reverse]

theorem Tight.trim_eq (h : Tight s) : trim s = s := by
  rw [trim, h.trimLeft_eq, h.trimRight_eq]

theorem Tight.append (hs : Tight s) (between : List Char) (ht : Tight t) :
    Tight (s ++ between ++ t) := by
  obtain ⟨c, rest, rfl, hc⟩ := hs.head
  obtain ⟨front, d, rfl, hd⟩ := ht.last
  exact ⟨⟨c, rest ++ between ++ (front ++ [d]), by simp, hc⟩,
    ⟨c :: rest ++ between ++ front, d, by simp, hd⟩⟩

theorem tight_of_isWord {w : List Char} (h : IsWord w) : Tight w := by
  constructor
  · obtain ⟨c, rest, rfl⟩ := List.exists_cons_of_ne_nil h.1
    exact ⟨c, rest, rfl, h.2 c (List.mem_cons_self ..)⟩
  · obtain ⟨front, c, rfl⟩ := (List.eq_nil_or_concat w).resolve_left h.1
    rw [List.concat_eq_append] at h
    exact ⟨front, c, List.concat_eq_append, h.2 c (by simp)⟩

theorem trim_blank_cons {b : Char} (hb : isBlank b = true) (s : List Char) :
    trim (b :: s) = trim s := by
  rw [trim, trimLeft, List.dropWhile_cons_of_pos hb]
  rfl

/-! ## Text between commas -/

theorem commaSeparated_cons_cons (s t : List Char) (texts : List (List Char)) :
    commaSeparated (s :: t :: texts) = s ++ [',', ' '] ++ commaSeparated (t :: texts) :=
  List.intercalate_cons_cons

/-- The blank in the middle of two texts belongs to the second one. -/
theorem commaSeparated_cons (s : List Char) (texts : List (List Char)) :
    commaSeparated (s :: texts) = [','].intercalate (s :: texts.map (' ' :: ·)) := by
  induction texts generalizing s with
  | nil => rfl
  | cons t texts ih =>
    rw [commaSeparated_cons_cons, ih, List.map_cons, List.intercalate_cons_cons]
    cases texts with
    | nil => simp
    | cons u texts => simp [List.intercalate_cons_cons]

/-- What holds of texts, and is kept by joining two of them, holds of all of them together. -/
theorem commaSeparated_of_forall {P : List Char → Prop} {texts : List (List Char)}
    (hjoin : ∀ s t, P s → P t → P (s ++ [',', ' '] ++ t)) (hne : texts ≠ [])
    (h : ∀ s ∈ texts, P s) : P (commaSeparated texts) := by
  obtain ⟨s, texts, rfl⟩ := List.exists_cons_of_ne_nil hne
  induction texts generalizing s with
  | nil =>
    rw [commaSeparated, List.intercalate_singleton]
    exact h s (List.mem_cons_self ..)
  | cons t texts ih =>
    rw [List.forall_mem_cons] at h
    rw [commaSeparated_cons_cons]
    exact hjoin s _ h.1 (ih t (List.cons_ne_nil t texts) h.2)

theorem tight_commaSeparated {texts : List (List Char)} (hne : texts ≠ [])
    (h : ∀ s ∈ texts, Tight s) : Tight (commaSeparated texts) :=
  commaSeparated_of_forall (fun _ _ hs ht => hs.append _ ht) hne h

theorem not_mem_commaSeparated {c : Char} (hc : c ∉ [',', ' ']) {texts : List (List Char)}
    (hne : texts ≠ []) (h : ∀ s ∈ texts, c ∉ s) : c ∉ commaSeparated texts := by
  refine commaSeparated_of_forall (fun s t hs ht => ?_) hne h
  rw [List.mem_append, List.mem_append, not_or, not_or]
  exact ⟨⟨hs, hc⟩, ht⟩

/-- Trimming the pieces between commas leaves the texts. -/
theorem map_trim_of_tight {texts : List (List Char)} (h : ∀ t ∈ s :: texts, Tight t) :
    (s :: texts.map (' ' :: ·)).map trim = s :: texts := by
  rw [List.forall_mem_cons] at h
  have htail : texts.map (trim ∘ (' ' :: ·)) = texts.map id := by
    refine List.map_congr_left fun t ht => ?_
    rw [Function.comp_apply, trim_blank_cons (by decide), (h.2 t ht).trim_eq, id]
  rw [List.map_cons, h.1.trim_eq, List.map_map, htail, List.map_id]

end

/-! ## Text whose brackets nest -/

/-- Text whose brackets nest.  Commas may only stand inside brackets; `inside` tells whether the
text as a whole does. -/
inductive Nested : Bool → List Char → Prop
  | nil {inside : Bool} : Nested inside []
  | cons {inside : Bool} {c : Char} {s : List Char} (hopening : Bracket.ofOpening? c = none)
      (hclosing : Bracket.ofClosing? c = none) (hcomma : c = ',' → inside = true)
      (h : Nested inside s) : Nested inside (c :: s)
  | bracketed {inside : Bool} (bracket : Bracket) {inner s : List Char}
      (hinner : Nested true inner) (h : Nested inside s) :
      Nested inside (bracket.opening :: (inner ++ bracket.closing :: s))

theorem Nested.mono {s : List Char} (h : Nested false s) : Nested true s := by
  generalize hinside : false = inside at h
  induction h with
  | nil => exact .nil
  | cons hopening hclosing _ _ ih => exact .cons hopening hclosing (fun _ => rfl) (ih hinside)
  | bracketed bracket hinner _ _ ih => exact .bracketed bracket hinner (ih hinside)

theorem Nested.append {inside : Bool} {s t : List Char} (hs : Nested inside s)
    (ht : Nested inside t) : Nested inside (s ++ t) := by
  induction hs with
  | nil => exact ht
  | cons hopening hclosing hcomma _ ih => exact .cons hopening hclosing hcomma (ih ht)
  | bracketed bracket hinner _ _ ih =>
    rw [List.cons_append, List.append_assoc, List.cons_append]
    exact .bracketed bracket hinner (ih ht)

theorem nested_commaSeparated {texts : List (List Char)} (hne : texts ≠ [])
    (h : ∀ s ∈ texts, Nested true s) : Nested true (commaSeparated texts) := by
  have hcomma : Nested true [',', ' '] :=
    .cons rfl rfl (fun _ => rfl) (.cons rfl rfl (fun _ => rfl) .nil)
  exact commaSeparated_of_forall (fun _ _ hs ht => (hs.append hcomma).append ht) hne h

section
variable {cs piece : List Char} {stack : List Bracket} {done : List (List Char)}

theorem topLevelLoop_opening (bracket : Bracket) :
    topLevelLoop (bracket.opening :: cs) stack piece done
      = topLevelLoop cs (bracket :: stack) (bracket.opening :: piece) done := by
  cases bracket <;> rfl

theorem topLevelLoop_closing (bracket : Bracket) :
    topLevelLoop (bracket.closing :: cs) (bracket :: stack) piece done
      = topLevelLoop cs stack (bracket.closing :: piece) done := by
  cases bracket <;> rfl

theorem topLevelLoop_cons {c : Char} (hopening : Bracket.ofOpening? c = none)
    (hclosing : Bracket.ofClosing? c = none) (hcomma : stack = [] → c ≠ ',') :
    topLevelLoop (c :: cs) stack piece done = topLevelLoop cs stack (c :: piece) done := by
  rw [topLevelLoop.eq_def]
  simp only [hopening, hclosing]
  cases stack with
  | nil => exact if_neg (hcomma rfl)
  | cons => rfl

/-- Nested text passes the loop as part of one piece, and leaves the open brackets as they were. -/
theorem topLevelLoop_append {inside : Bool} {s : List Char} (h : Nested inside s)
    (hstack : stack = [] → inside = false) :
    topLevelLoop (s ++ cs) stack piece done = topLevelLoop cs stack (s.reverse ++ piece) done := by
  induction h generalizing cs stack piece with
  | nil => rfl
  | @cons inside c s hopening hclosing hcomma _ ih =>
    have hc : stack = [] → c ≠ ',' := by
      rintro hnil rfl
      exact absurd (hcomma rfl) (by simp [hstack hnil])
    rw [List.cons_append, topLevelLoop_cons hopening hclosing hc, ih hstack]
    simp
  | @bracketed inside bracket inner s _ _ ihinner ih =>
    -- The text between the brackets is read with one more bracket open, so its commas are passed.
    rw [List.cons_append, topLevelLoop_opening, List.append_assoc, List.cons_append,
      ihinner (by simp), topLevelLoop_closing, ih hstack]
    simp

theorem topLevelLoop_comma :
    topLevelLoop (',' :: cs) [] piece done = topLevelLoop cs [] [] (piece.reverse :: done) :=
  rfl

theorem topLevelLoop_intercalate {pieces : List (List Char)} (hne : pieces ≠ [])
    (h : ∀ s ∈ pieces, Nested false s) :
    topLevelLoop ([','].intercalate pieces) [] [] done = .ok (done.reverse ++ pieces) := by
  obtain ⟨s, pieces, rfl⟩ := List.exists_cons_of_ne_nil hne
  induction pieces generalizing s done with
  | nil =>
    rw [List.intercalate_singleton, ← List.append_nil s,
      topLevelLoop_append (h s (List.mem_cons_self ..)) fun _ => rfl]
    simp [topLevelLoop]
  | cons t pieces ih =>
    rw [List.forall_mem_cons] at h
    rw [List.intercalate_cons_cons, List.append_assoc, topLevelLoop_append h.1 fun _ => rfl,
      List.singleton_append, topLevelLoop_comma, ih t (List.cons_ne_nil t pieces) h.2]
    simp

/-- Texts without commas outside brackets are found between commas, with the blanks around them
trimmed off. -/
theorem splitOperands_intercalate {pieces : List (List Char)} (hne : pieces.map trim ≠ [[]])
    (hne' : pieces ≠ []) (h : ∀ s ∈ pieces, Nested false s) :
    splitOperands ([','].intercalate pieces) = .ok (pieces.map trim) := by
  rw [splitOperands, topLevelPieces, topLevelLoop_intercalate hne' h]
  exact congrArg _ (if_neg hne)

end

/-! ## Tokens -/

/-- The characters that have a meaning of their own between operands and around them. -/
def isMark (c : Char) : Bool :=
  isBlank c || c == ',' || c == ':' || (Bracket.ofOpening? c).isSome
    || (Bracket.ofClosing? c).isSome

/-- A word without punctuation. -/
def IsToken (w : List Char) : Prop :=
  w ≠ [] ∧ ∀ c ∈ w, isMark c = false

instance (w : List Char) : Decidable (IsToken w) :=
  decidable_of_iff ((!w.isEmpty && w.all fun c => !isMark c) = true) (by simp [IsToken])

section
variable {w : List Char}

theorem IsToken.cons (h : IsToken w) {c : Char} (hc : isMark c = false) : IsToken (c :: w) :=
  ⟨List.cons_ne_nil c w, List.forall_mem_cons.2 ⟨hc, h.2⟩⟩

theorem IsToken.not_mem (h : IsToken w) {c : Char} (hc : isMark c = true) : c ∉ w := by
  intro hmem
  exact absurd hc (by simp [h.2 c hmem])

theorem IsToken.isWord (h : IsToken w) : IsWord w := by
  refine ⟨h.1, fun c hc => ?_⟩
  have hmark := h.2 c hc
  simp only [isMark, Bool.or_eq_false_iff] at hmark
  exact hmark.1.1.1.1

theorem IsToken.tight (h : IsToken w) : Tight w :=
  tight_of_isWord h.isWord

theorem IsToken.nested (h : IsToken w) : Nested false w := by
  have hmarks := h.2
  clear h
  induction w with
  | nil => exact .nil
  | cons c cs ih =>
    rw [List.forall_mem_cons] at hmarks
    obtain ⟨hc, hcs⟩ := hmarks
    simp only [isMark, Bool.or_eq_false_iff, beq_eq_false_iff_ne, Option.isSome_eq_false_iff,
      Option.isNone_iff_eq_none] at hc
    obtain ⟨⟨⟨⟨-, hcomma⟩, -⟩, hopening⟩, hclosing⟩ := hc
    exact .cons hopening hclosing (fun h => absurd h hcomma) (ih hcs)

end

theorem isToken_name (r : Register) : IsToken r.name.toList := by
  obtain ⟨c⟩ := r
  revert c
  decide

theorem isToken_spelling : ∀ m ∈ Mnemonic.table, IsToken m.spelling.toList := by
  decide

theorem isMark_digitChar : ∀ n < 16, isMark n.digitChar = false := by
  decide

theorem isToken_toDigits {radix : Nat} (hone : 1 < radix) (hradix : radix ≤ 16) (n : Nat) :
    IsToken (Nat.toDigits radix n) :=
  ⟨Nat.toDigits_ne_nil, forall_mem_toDigits hone (fun m hm => isMark_digitChar m (by omega)) n⟩

/-! ## Numbers -/

theorem toList_decimal_negSucc (n : Nat) :
    (decimal (.negSucc n)).toList = '-' :: Nat.toDigits 10 (n + 1) := by
  simp [decimal]

theorem isToken_decimal (v : Int) : IsToken (decimal v).toList := by
  cases v with
  | ofNat n =>
    rw [Int.ofNat_eq_natCast, toList_decimal]
    exact isToken_toDigits (by decide) (by decide) n
  | negSucc n =>
    rw [toList_decimal_negSucc]
    exact (isToken_toDigits (by decide) (by decide) (n + 1)).cons (by decide)

theorem digitChar_ne_minus : ∀ n < 16, n.digitChar ≠ '-' := by
  decide

theorem signed?_toDigits {radix : Nat} (hone : 1 < radix) (hradix : radix ≤ 16) (n : Nat) :
    signed? radix (Nat.toDigits radix n) = some (n : Int) := by
  have hminus : ∀ c ∈ Nat.toDigits radix n, c ≠ '-' :=
    forall_mem_toDigits hone (fun m hm => digitChar_ne_minus m (by omega)) n
  unfold signed?
  split
  · next ds hds => exact absurd rfl (hminus '-' (hds ▸ List.mem_cons_self))
  · rw [unsigned?_toDigits hone hradix]
    rfl

theorem isDigit_digitChar : ∀ n < 10, n.digitChar.isDigit = true := by
  decide

theorem magnitudeDigits?_toDigits (n : Nat) :
    magnitudeDigits? (Nat.toDigits 10 n) = some (n : Int) := by
  have hdigit : ∀ c ∈ Nat.toDigits 10 n, c.isDigit = true :=
    forall_mem_toDigits (by decide) isDigit_digitChar n
  have hsigned : signed? 10 (Nat.toDigits 10 n) = some (n : Int) :=
    signed?_toDigits (by decide) (by decide) n
  unfold magnitudeDigits?
  split
  · next ds hds => exact absurd (hdigit 'x' (by simp [hds])) (by decide)
  · next ds hds => exact absurd (hdigit 'X' (by simp [hds])) (by decide)
  · next ds hds => exact absurd (hdigit '$' (by simp [hds])) (by decide)
  · next c cs _ _ _ hds => rw [if_pos (hdigit c (by simp [hds])), ← hds, hsigned]
  · next hds => exact absurd hds Nat.toDigits_ne_nil

theorem magnitude?_toDigits {n : Nat} (h : n < 2 ^ 127) :
    magnitude? (Nat.toDigits 10 n) = some (n : Int) := by
  have hfits : fitsSigned 128 n = true := fitsSigned_iff.2 ⟨by omega, by omega⟩
  rw [magnitude?, magnitudeDigits?_toDigits, Option.filter_some, if_pos hfits]

theorem opposite_eq_neg {m : Int} (hlow : -2 ^ 127 < m) (hhigh : m ≤ 2 ^ 127) :
    opposite m = -m := by
  rw [opposite, Nat.one_shiftLeft]
  exact Int.bmod_eq_of_le (by omega) (by omega)

theorem opposite_smallest : opposite (-2 ^ 127) = -2 ^ 127 := by
  decide

/-- A number is read back from its decimal digits. -/
theorem literal?_decimal {v : Int} (h : v.natAbs < 2 ^ 127) :
    literal? (decimal v).toList = some v := by
  cases v with
  | ofNat n =>
    have hminus : ∀ c ∈ Nat.toDigits 10 n, c ≠ '-' :=
      forall_mem_toDigits (by decide) (fun m hm => digitChar_ne_minus m (by omega)) n
    rw [Int.ofNat_eq_natCast, toList_decimal]
    unfold literal?
    split
    · next ds hds => exact absurd rfl (hminus '-' (hds ▸ List.mem_cons_self))
    · exact magnitude?_toDigits h
  | negSucc n =>
    have htight : Tight (Nat.toDigits 10 (n + 1)) :=
      (isToken_toDigits (by decide) (by decide) (n + 1)).tight
    have hmagnitude : magnitude? (Nat.toDigits 10 (n + 1)) = some ((n + 1 : Nat) : Int) :=
      magnitude?_toDigits h
    rw [toList_decimal_negSucc]
    show (magnitude? (trimLeft (Nat.toDigits 10 (n + 1)))).map opposite = _
    rw [htight.trimLeft_eq, hmagnitude, Option.map_some, opposite_eq_neg (by omega) (by omega)]
    rfl

/-- A number is read back from its hexadecimal digits. -/
theorem literal?_hex {n : Nat} (h : n < 2 ^ 127) :
    literal? ('0' :: 'x' :: Nat.toDigits 16 n) = some (n : Int) := by
  have hfits : fitsSigned 128 n = true := fitsSigned_iff.2 ⟨by omega, by omega⟩
  show (signed? 16 (Nat.toDigits 16 n)).filter (fitsSigned 128) = _
  rw [signed?_toDigits (by decide) (by decide), Option.filter_some, if_pos hfits]

theorem readImmediate_of_literal? {s : List Char} {v : Int} (htight : Tight s)
    (h : literal? s = some v) (hfits : fitsSigned 64 v = true) : readImmediate s = .ok v := by
  have hnumber : readNumber s = .ok v := by
    rw [readNumber, htight.trim_eq, h]
  rw [readImmediate, hnumber]
  exact if_pos hfits

/-! ## Operands -/

/-- The registers that source text can name, except for the one that it calls `r0`. -/
def Register.IsNameable (r : Register) : Prop :=
  r ≠ .zero ∧ r.isReserved = false

instance (r : Register) : Decidable r.IsNameable :=
  inferInstanceAs (Decidable (_ ∧ _))

/-- A text that reads as an operand wherever it stands in a list. -/
structure Spells (text : List Char) (o : Operand) : Prop where
  tight : Tight text
  nested : Nested false text
  colon_not_mem : ':' ∉ text
  read_eq : readOperand text = .ok o

theorem IsToken.spells {w : List Char} {o : Operand} (h : IsToken w)
    (hread : readOperand w = .ok o) : Spells w o :=
  ⟨h.tight, h.nested, h.not_mem (by decide), hread⟩

theorem readRegister_name {r : Register} (h : r.IsNameable) :
    readRegister r.name.toList = .ok r := by
  rw [readRegister, (isToken_name r).tight.trim_eq, Register.ofName?_name]
  simp only [if_neg h.1, h.2]
  rfl

theorem spells_register {r : Register} (h : r.IsNameable) : Spells r.name.toList (.register r) := by
  have hall : ∀ code : Fin 16, (Register.mk code).IsNameable →
      (readOperand (Register.mk code).name.toList).toOption = some (.register ⟨code⟩) := by
    decide +kernel
  exact (isToken_name r).spells (toOption_eq_some_iff.1 (hall r.code h))

theorem spells_immediate {s : List Char} {v : Int} (htoken : IsToken s) (h : literal? s = some v)
    (hfits : fitsSigned 64 v = true) : Spells ('#' :: s) (.immediate v) := by
  refine (htoken.cons (by decide)).spells ?_
  show (readImmediate s).map Operand.immediate = _
  rw [readImmediate_of_literal? htoken.tight h hfits]
  rfl

/-! ## Memory operands -/

theorem stripLast?_concat (c : Char) (s : List Char) : stripLast? c (s ++ [c]) = some s := by
  rw [stripLast?, if_pos (by simp), List.dropLast_concat]

theorem stripLast?_concat_of_ne {c d : Char} (h : d ≠ c) (s : List Char) :
    stripLast? c (s ++ [d]) = none := by
  rw [stripLast?, if_neg (by simpa using h)]

theorem stripLast?_of_not_mem {c : Char} {s : List Char} (h : c ∉ s) : stripLast? c s = none := by
  rw [stripLast?, if_neg fun hlast => h (List.mem_of_getLast? hlast)]

/-- The entries between the brackets of an operand. -/
theorem map_trim_splitWhere {texts : List (List Char)} (hne : texts ≠ [])
    (h : ∀ s ∈ texts, IsToken s) :
    (splitWhere (· == ',') (commaSeparated texts)).map trim = texts := by
  obtain ⟨s, texts, rfl⟩ := List.exists_cons_of_ne_nil hne
  have hpieces : splitWhere (· == ',') (commaSeparated (s :: texts))
      = s :: texts.map (' ' :: ·) := by
    rw [commaSeparated_cons, splitWhere_eq_splitOnP]
    refine List.splitOn_intercalate ',' ?_ (List.cons_ne_nil s _)
    rw [List.forall_mem_cons, List.forall_mem_map]
    rw [List.forall_mem_cons] at h
    refine ⟨h.1.not_mem (by decide), fun t ht hmem => ?_⟩
    exact (h.2 t ht).not_mem (by decide) ((List.mem_cons.1 hmem).resolve_left (by decide))
  rw [hpieces, map_trim_of_tight fun t ht => (h t ht).tight]

theorem tight_bracketed (inner : List Char) : Tight ('[' :: (inner ++ [']'])) :=
  ⟨⟨'[', inner ++ [']'], rfl, by decide⟩, ⟨'[' :: inner, ']', rfl, by decide⟩⟩

/-- Blanks may stand between the closing bracket and the mark of a base that is moved. -/
theorem readMemory_marked (inner : List Char) {t : List Char}
    (ht : ∀ c ∈ t, isBlank c = true) :
    readMemory ('[' :: (inner ++ ']' :: (t ++ ['!'])))
      = readAddressing ('[' :: (inner ++ ']' :: (t ++ ['!']))) inner true := by
  have hstrip : stripLast? '!' ('[' :: (inner ++ ']' :: (t ++ ['!'])))
      = some ('[' :: (inner ++ [']']) ++ t) := by
    simpa using stripLast?_concat '!' ('[' :: (inner ++ [']']) ++ t)
  simp only [readMemory, hstrip, trimRight_append_of_blank ht, (tight_bracketed inner).trimRight_eq,
    stripLast?_concat]

theorem readMemory_bracketed (inner : List Char) (writeback : Bool) :
    ∃ whole, readMemory ('[' :: (inner ++ ']' :: if writeback then ['!'] else []))
      = readAddressing whole inner writeback := by
  cases writeback with
  | false =>
    have hstrip : stripLast? '!' ('[' :: (inner ++ [']'])) = none :=
      stripLast?_concat_of_ne (by decide) ('[' :: inner)
    refine ⟨'[' :: (inner ++ [']']), ?_⟩
    simp only [readMemory, Bool.false_eq_true, if_false, hstrip, stripLast?_concat]
  | true => exact ⟨_, readMemory_marked inner (t := []) (by simp)⟩

/-- The texts between the brackets of a memory operand. -/
def memoryEntries (base : Register) (offset : Option Int) : List (List Char) :=
  renderRegister base :: (offset.map renderImmediate).toList

section
variable {base : Register} {offset : Option Int}

theorem isToken_of_mem_memoryEntries : ∀ s ∈ memoryEntries base offset, IsToken s := by
  rw [memoryEntries, List.forall_mem_cons]
  refine ⟨isToken_name base, fun s hs => ?_⟩
  obtain ⟨v, -, rfl⟩ := Option.map_eq_some_iff.1 (Option.mem_toList.1 hs)
  exact (isToken_decimal v).cons (by decide)

theorem readAddressing_memoryEntries (hbase : base.IsNameable)
    (hoffset : ∀ v ∈ offset, fitsSigned 64 v = true) (whole : List Char) (writeback : Bool) :
    readAddressing whole (commaSeparated (memoryEntries base offset)) writeback
      = .ok (.memory base offset writeback) := by
  have hname : readRegister (renderRegister base) = .ok base := readRegister_name hbase
  have hentries : (splitWhere (· == ',') (commaSeparated (memoryEntries base offset))).map trim
      = memoryEntries base offset :=
    map_trim_splitWhere (List.cons_ne_nil _ _) isToken_of_mem_memoryEntries
  rw [readAddressing, hentries]
  cases offset with
  | none =>
    show (readRegister (renderRegister base)).bind _ = _
    rw [hname]
    rfl
  | some v =>
    have hv : readOffset (renderImmediate v) = .ok v := by
      have hfits := hoffset v rfl
      refine readImmediate_of_literal? (isToken_decimal v).tight (literal?_decimal ?_) hfits
      have hbounds := fitsSigned_iff.1 hfits
      omega
    show (readRegister (renderRegister base)).bind
      (fun r => (readOffset (renderImmediate v)).bind _) = _
    rw [hname, hv]
    rfl

/-- Memory operands are read back from their text. -/
theorem spells_memory (hbase : base.IsNameable)
    (hoffset : ∀ v ∈ offset, fitsSigned 64 v = true) (writeback : Bool) :
    Spells (Operand.render (.memory base offset writeback)) (.memory base offset writeback) where
  tight := by
    have htight := tight_bracketed (commaSeparated (memoryEntries base offset))
    cases writeback with
    | false => exact htight
    | true =>
      have hmark : Tight ['!'] := tight_of_isWord (by decide)
      simpa [Operand.render, memoryEntries] using htight.append [] hmark
  nested := by
    have hinner : Nested true (commaSeparated (memoryEntries base offset)) :=
      nested_commaSeparated (List.cons_ne_nil _ _) fun s hs =>
        (isToken_of_mem_memoryEntries s hs).nested.mono
    refine .bracketed .square hinner ?_
    cases writeback with
    | false => exact .nil
    | true => exact .cons rfl rfl (by decide) .nil
  colon_not_mem := by
    have hinner : ':' ∉ commaSeparated (memoryEntries base offset) :=
      not_mem_commaSeparated (by decide) (List.cons_ne_nil _ _) fun s hs =>
        (isToken_of_mem_memoryEntries s hs).not_mem (by decide)
    rw [memoryEntries] at hinner
    cases writeback <;> simp [Operand.render, hinner]
  read_eq := by
    obtain ⟨whole, hwhole⟩ :=
      readMemory_bracketed (commaSeparated (memoryEntries base offset)) writeback
    exact hwhole.trans (readAddressing_memoryEntries hbase hoffset whole writeback)

end

/-! ## Lists of operands and statements -/

section
variable {texts : List (List Char)} {operands : List Operand}

theorem forall_mem_of_spells {P : List Char → Prop} (hP : ∀ {text o}, Spells text o → P text)
    (h : List.Forall₂ Spells texts operands) : ∀ s ∈ texts, P s := by
  induction h with
  | nil => exact List.forall_mem_nil _
  | cons hs _ ih => exact List.forall_mem_cons.2 ⟨hP hs, ih⟩

/-- The operands of a list are read back from their texts. -/
theorem readOperands_commaSeparated (hne : texts ≠ []) (h : List.Forall₂ Spells texts operands) :
    readOperands (commaSeparated texts) = .ok operands := by
  obtain ⟨s, texts, rfl⟩ := List.exists_cons_of_ne_nil hne
  have htight := forall_mem_of_spells Spells.tight h
  have hnested := forall_mem_of_spells Spells.nested h
  have hpieces : splitOperands (commaSeparated (s :: texts)) = .ok (s :: texts) := by
    have htrim := map_trim_of_tight htight
    rw [commaSeparated_cons, splitOperands_intercalate ?_ (List.cons_ne_nil s _) ?_, htrim]
    · rw [htrim]
      rintro heq
      exact (htight s (List.mem_cons_self ..)).ne_nil (List.cons.inj heq).1
    · rw [List.forall_mem_cons, List.forall_mem_map]
      rw [List.forall_mem_cons] at hnested
      exact ⟨hnested.1, fun t ht => .cons rfl rfl (by decide) (hnested.2 t ht)⟩
  rw [readOperands, hpieces]
  exact mapM_eq_ok_iff.2 (h.imp fun _ _ hspells => hspells.read_eq)

/-- The text of an instruction with operands. -/
def statementText (name : List Char) (texts : List (List Char)) : List Char :=
  name ++ [' '] ++ commaSeparated texts

variable {name : List Char}

theorem tight_statementText (hname : IsToken name) (hne : texts ≠ [])
    (h : List.Forall₂ Spells texts operands) : Tight (statementText name texts) :=
  hname.tight.append _ (tight_commaSeparated hne (forall_mem_of_spells Spells.tight h))

theorem find?_spelling : ∀ m ∈ Mnemonic.table, Mnemonic.find? m.spelling.toList = some m := by
  decide

/-- An instruction is read back from its mnemonic and the texts of its operands. -/
theorem readText_statementText {m : Mnemonic} (hm : m ∈ Mnemonic.table)
    (hword : m.operation ≠ .word) (hne : texts ≠ []) (h : List.Forall₂ Spells texts operands) :
    Statement.readText (statementText m.spelling.toList texts) = .ok (.instruction m operands) := by
  have hname := isToken_spelling m hm
  have hoperands : Tight (commaSeparated texts) :=
    tight_commaSeparated hne (forall_mem_of_spells Spells.tight h)
  have hcolon : ':' ∉ statementText m.spelling.toList texts := by
    have hcolon' : ':' ∉ commaSeparated texts :=
      not_mem_commaSeparated (by decide) hne (forall_mem_of_spells Spells.colon_not_mem h)
    simp [statementText, hname.not_mem (c := ':') (by decide), hcolon']
  -- The mnemonic ends at the first blank, which is the one behind it.
  have hblank : ∀ c ∈ m.spelling.toList, (!isBlank c) = true :=
    fun c hc => by simp [hname.isWord.2 c hc]
  have htake : (statementText m.spelling.toList texts).takeWhile (fun c => !isBlank c)
      = m.spelling.toList := by
    rw [statementText, List.append_assoc, List.takeWhile_append_of_pos hblank,
      List.singleton_append, List.takeWhile_cons_of_neg (by decide), List.append_nil]
  have hdrop : trim ((statementText m.spelling.toList texts).dropWhile fun c => !isBlank c)
      = commaSeparated texts := by
    rw [statementText, List.append_assoc, List.dropWhile_append_of_pos hblank,
      List.singleton_append, List.dropWhile_cons_of_neg (by decide), trim_blank_cons (by decide),
      hoperands.trim_eq]
  rw [Statement.readText, stripLast?_of_not_mem hcolon]
  simp only [htake, find?_spelling m hm, hdrop]
  rw [Statement.readBody, if_neg hword, readOperands_commaSeparated hne h]
  rfl

end
end FlaglessAsm
