/-!
# Blank characters and pieces of text

Source lines and directive lines are read as lists of characters.  This file has the vocabulary
every reader of the library shares: which characters are blank, how text is trimmed, and how it is
cut into pieces.

## What is here

* `isBlank`: the Unicode property `White_Space`.
* `trimLeft`, `trimRight`, `trim`: text without blanks at its ends.
* `splitWhere`: the pieces between separators, one more than there are separators.
* `words`: the maximal runs of characters that are not blank.
-/

set_option autoImplicit false

namespace FlaglessAsm
namespace Text

/-! ## Blanks -/

/-- The characters with the Unicode property `White_Space`. -/
def isBlank (c : Char) : Bool :=
  let n := c.toNat
  (0x09 ≤ n && n ≤ 0x0D) || n == 0x20 || n == 0x85 || n == 0xA0 || n == 0x1680
    || (0x2000 ≤ n && n ≤ 0x200A) || n == 0x2028 || n == 0x2029 || n == 0x202F || n == 0x205F
    || n == 0x3000

/-- Text without its leading blanks. -/
def trimLeft (s : List Char) : List Char :=
  s.dropWhile isBlank

/-- Text without its trailing blanks. -/
def trimRight (s : List Char) : List Char :=
  (s.reverse.dropWhile isBlank).reverse

/-- Text without blanks at either end. -/
def trim (s : List Char) : List Char :=
  trimRight (trimLeft s)

/-! ## Pieces -/

/-- The loop of `splitWhere`: `piece` is the current piece and `done` the finished ones, both
backwards. -/
def splitLoop (p : Char → Bool) : List Char → List Char → List (List Char) → List (List Char)
  | [], piece, done => (piece.reverse :: done).reverse
  | c :: cs, piece, done =>
    if p c then splitLoop p cs [] (piece.reverse :: done) else splitLoop p cs (c :: piece) done

/-- The pieces of `s` between the characters that satisfy `p`.  Empty text has one empty piece. -/
def splitWhere (p : Char → Bool) (s : List Char) : List (List Char) :=
  splitLoop p s [] []

/-- The maximal runs of characters that are not blank. -/
def words (s : List Char) : List (List Char) :=
  (splitWhere isBlank s).filter fun w => !w.isEmpty

/-! ## How the pieces unfold -/

theorem splitLoop_done (p : Char → Bool) (s piece : List Char) (done : List (List Char)) :
    splitLoop p s piece done = done.reverse ++ splitLoop p s piece [] := by
  induction s generalizing piece done with
  | nil => simp [splitLoop]
  | cons c cs ih =>
    by_cases h : p c
    · simp only [splitLoop, h, if_true]
      rw [ih [] (piece.reverse :: done), ih [] [piece.reverse]]
      simp
    · simp only [splitLoop, h]
      exact ih (c :: piece) done

theorem splitLoop_piece (p : Char → Bool) (s piece : List Char) :
    splitLoop p s piece [] = (splitWhere p s).modifyHead (piece.reverse ++ ·) := by
  induction s generalizing piece with
  | nil => simp [splitWhere, splitLoop]
  | cons c cs ih =>
    by_cases h : p c
    · simp only [splitWhere, splitLoop, h, if_true, List.reverse_nil]
      rw [splitLoop_done p cs [] [piece.reverse], splitLoop_done p cs [] [[]]]
      simp
    · have h1 := ih (c :: piece)
      have h2 := ih [c]
      simp only [splitWhere, splitLoop, h] at *
      rw [if_neg (by simp), if_neg (by simp), h1, h2, List.modifyHead_modifyHead]
      congr 1
      funext l
      simp

/-- A separator ends a piece. -/
theorem splitWhere_cons_pos {p : Char → Bool} {c : Char} (h : p c = true) (s : List Char) :
    splitWhere p (c :: s) = [] :: splitWhere p s := by
  rw [splitWhere, splitLoop, if_pos h, splitLoop_done]
  simp [splitWhere]

/-- Any other character is the first of its piece. -/
theorem splitWhere_cons_neg {p : Char → Bool} {c : Char} (h : p c = false) (s : List Char) :
    splitWhere p (c :: s) = (splitWhere p s).modifyHead (c :: ·) := by
  rw [splitWhere, splitLoop, if_neg (by simp [h]), splitLoop_piece]
  rfl

end Text
end FlaglessAsm
