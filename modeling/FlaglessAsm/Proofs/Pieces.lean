import Mathlib.Data.List.TakeWhile
import FlaglessAsm.Text.Lines

/-!
# Words and lines of laid out text

What cutting text into words and trimming it leaves, for text that is laid out with blanks between
and around its words.  A blank between two texts separates their words, so `words` is additive over
blanks, and everything else about `words` here follows from that.

## What is here

* `splitWhere_eq_splitOnP`: the pieces of a text are those of `List.splitOnP`.
* `IsWord`: text that is one word.
* `words_append_cons`: a blank separates words.
* `words_intercalate`: words joined by spaces are read back.
* `trim_append_cons`, `words_trimRight`: text that is trimmed.
-/

set_option autoImplicit false

namespace FlaglessAsm
namespace Text

/-! ## Pieces -/

theorem splitWhere_eq_splitOnP (p : Char → Bool) (s : List Char) :
    splitWhere p s = s.splitOnP p := by
  induction s with
  | nil => rfl
  | cons c cs ih =>
    rw [List.splitOnP_cons_eq_if_modifyHead, ← ih]
    by_cases h : p c = true
    · rw [if_pos h, splitWhere_cons_pos h]
    · rw [if_neg h, splitWhere_cons_neg (Bool.eq_false_iff.2 h)]

/-! ## Words -/

/-- Text that is one word. -/
def IsWord (w : List Char) : Prop :=
  w ≠ [] ∧ ∀ c ∈ w, isBlank c = false

instance (w : List Char) : Decidable (IsWord w) :=
  decidable_of_iff ((!w.isEmpty && w.all fun c => !isBlank c) = true) (by simp [IsWord])

/-- A blank separates words. -/
theorem words_append_cons {b : Char} (hb : isBlank b = true) (s t : List Char) :
    words (s ++ b :: t) = words s ++ words t := by
  simp only [words, splitWhere_eq_splitOnP]
  rw [List.splitOnP_append_cons s t hb, List.filter_append]

theorem words_of_isWord {w : List Char} (h : IsWord w) : words w = [w] := by
  rw [words, splitWhere_eq_splitOnP, List.splitOnP_eq_singleton h.2]
  simp [h.1]

theorem words_of_blank {s : List Char} (h : ∀ c ∈ s, isBlank c = true) : words s = [] := by
  induction s with
  | nil => rfl
  | cons c cs ih =>
    rw [List.forall_mem_cons] at h
    exact (words_append_cons h.1 [] cs).trans (ih h.2)

/-- Blanks behind a text change nothing. -/
theorem words_append_of_blank {t : List Char} (h : ∀ c ∈ t, isBlank c = true) (s : List Char) :
    words (s ++ t) = words s := by
  cases t with
  | nil => rw [List.append_nil]
  | cons b bs =>
    rw [List.forall_mem_cons] at h
    rw [words_append_cons h.1, words_of_blank h.2, List.append_nil]

/-- Words joined by spaces are read back. -/
theorem words_intercalate {ws : List (List Char)} (h : ∀ w ∈ ws, IsWord w) :
    words ([' '].intercalate ws) = ws := by
  induction ws with
  | nil => rfl
  | cons w rest ih =>
    rw [List.forall_mem_cons] at h
    cases rest with
    | nil => rw [List.intercalate_singleton, words_of_isWord h.1]
    | cons w' rest =>
      rw [List.intercalate_cons_cons, List.append_assoc, List.singleton_append,
        words_append_cons (by decide), words_of_isWord h.1, ih h.2]
      rfl

/-- The only blanks between words joined by spaces are those spaces. -/
theorem not_mem_intercalate {b : Char} (hb : isBlank b = true) (hspace : b ≠ ' ')
    {ws : List (List Char)} (h : ∀ w ∈ ws, IsWord w) : b ∉ [' '].intercalate ws := by
  induction ws with
  | nil => simp
  | cons w rest ih =>
    rw [List.forall_mem_cons] at h
    have hw : b ∉ w := by
      intro hmem
      exact absurd hb (by simp [h.1.2 b hmem])
    cases rest with
    | nil => rwa [List.intercalate_singleton]
    | cons w' rest =>
      rw [List.intercalate_cons_cons]
      simp only [List.mem_append, List.mem_singleton, not_or]
      exact ⟨⟨hw, hspace⟩, ih h.2⟩

/-! ## Trimmed text -/

theorem trimLeft_of_blank {s : List Char} (h : ∀ c ∈ s, isBlank c = true) : trimLeft s = [] := by
  rw [trimLeft, List.dropWhile_eq_nil_iff]
  exact h

theorem trimLeft_append_cons {c : Char} {indent : List Char}
    (hindent : ∀ b ∈ indent, isBlank b = true) (hc : isBlank c = false) (s : List Char) :
    trimLeft (indent ++ c :: s) = c :: s := by
  rw [trimLeft, List.dropWhile_append_of_pos hindent, List.dropWhile_cons_of_neg (by simp [hc])]

/-- Trimming at the end keeps a first character that is not blank. -/
theorem trimRight_cons {c : Char} (hc : isBlank c = false) (s : List Char) :
    trimRight (c :: s) = c :: trimRight s := by
  have hlast : [c].dropWhile isBlank = [c] := List.dropWhile_cons_of_neg (by simp [hc])
  unfold trimRight
  rw [List.reverse_cons, List.dropWhile_append, hlast]
  by_cases h : (s.reverse.dropWhile isBlank).isEmpty = true
  · rw [if_pos h, List.isEmpty_iff.1 h]
    rfl
  · rw [if_neg h, List.reverse_append]
    rfl

theorem trim_of_blank {s : List Char} (h : ∀ c ∈ s, isBlank c = true) : trim s = [] := by
  rw [trim, trimLeft_of_blank h]
  rfl

/-- Trimmed text starts with its first character that is not blank. -/
theorem trim_append_cons {c : Char} {indent : List Char}
    (hindent : ∀ b ∈ indent, isBlank b = true) (hc : isBlank c = false) (s : List Char) :
    trim (indent ++ c :: s) = c :: trimRight s := by
  rw [trim, trimLeft_append_cons hindent hc, trimRight_cons hc]

theorem trimRight_append_of_blank {t : List Char} (h : ∀ c ∈ t, isBlank c = true)
    (s : List Char) : trimRight (s ++ t) = trimRight s := by
  unfold trimRight
  rw [List.reverse_append, List.dropWhile_append_of_pos fun c hc => h c (List.mem_reverse.1 hc)]

/-- Blanks behind a text are trimmed off. -/
theorem trim_append_of_blank {t : List Char} (h : ∀ c ∈ t, isBlank c = true) (s : List Char) :
    trim (s ++ t) = trim s := by
  by_cases hs : ∀ c ∈ s, isBlank c = true
  · rw [trim_of_blank hs, trim_of_blank fun c hc => (List.mem_append.1 hc).elim (hs c) (h c)]
  · have hne : ¬ (trimLeft s).isEmpty = true := by
      rw [List.isEmpty_iff, trimLeft, List.dropWhile_eq_nil_iff]
      exact hs
    have hleft : trimLeft (s ++ t) = trimLeft s ++ t := by
      rw [trimLeft, List.dropWhile_append]
      exact if_neg hne
    rw [trim, hleft, trimRight_append_of_blank h]
    rfl

/-- What trimming takes off the end of a text are blanks. -/
theorem exists_trimRight_append (s : List Char) :
    ∃ t, s = trimRight s ++ t ∧ ∀ c ∈ t, isBlank c = true := by
  refine ⟨(s.reverse.takeWhile isBlank).reverse, ?_, ?_⟩
  · rw [trimRight, ← List.reverse_append, List.takeWhile_append_dropWhile, List.reverse_reverse]
  · intro c hc
    exact List.mem_takeWhile_imp (List.mem_reverse.1 hc)

@[simp] theorem words_trimRight (s : List Char) : words (trimRight s) = words s := by
  obtain ⟨t, hs, ht⟩ := exists_trimRight_append s
  calc words (trimRight s) = words (trimRight s ++ t) := (words_append_of_blank ht _).symm
    _ = words s := by rw [← hs]

/-! ## Lines -/

/-- A carriage return at the end of a line is trimmed off in any case. -/
@[simp] theorem trim_dropReturn (line : List Char) : trim (dropReturn line) = trim line := by
  unfold dropReturn
  by_cases h : line.getLast? = some '\r'
  · obtain ⟨front, rfl⟩ := List.getLast?_eq_some_iff.1 h
    have hblank : ∀ c ∈ ['\r'], isBlank c = true := List.all_eq_true.1 rfl
    rw [if_pos h, List.dropLast_concat, trim_append_of_blank hblank]
  · rw [if_neg h]

end Text
end FlaglessAsm
