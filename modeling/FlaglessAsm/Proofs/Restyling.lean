import FlaglessAsm.Proofs.LetterCase
import FlaglessAsm.Proofs.OperandLists
import FlaglessAsm.Proofs.Relining

/-!
# Layout and letter case

Blank lines, blanks around a line, and the letter case of a line that names no label are style: a
source text can be restyled without a change to what is assembled from it.  If the text does not
assemble, the restyled one has the same error, on the line that the faulty line has become.

A source text and a restyled one are given together, as a list of edits.

## What is here

* `Restyled`: one line in another style, and `Restyled.readText_eq`: it is read the same.
* `LineEdit`: an edit of a source text, with `shifted`, the new number of each old line.
* `forall₂_ofTextsFrom`: the lines of both texts, blank ones left out, line by line.
* `same_assembly_of_restyled`: what is assembled from both.
-/

set_option autoImplicit false

namespace FlaglessAsm

open Text

/-! ## One line -/

/-- A line in another style: with blanks around it, and with letters in another case if it is a
data word with a number or an instruction whose operands are no labels. -/
inductive Restyled (old new : List Char) : Prop
  | respaced (h : Spaced old new)
  | recased {text : List Char} (h : Spaced text new) (hlower : lower text = lower old)
      {x : Statement} (hread : Statement.readText (trim old) = .ok x) (hx : x.isNameless = true)

namespace Restyled

variable {old new : List Char} (h : Restyled old new)
include h

theorem lower_trim_eq : lower (trim new) = lower (trim old) := by
  cases h with
  | respaced hspaced => rw [hspaced.trim_eq_trim]
  | recased hspaced hlower => rw [hspaced.trim_eq_trim, ← trim_lower, hlower, trim_lower]

theorem trim_eq_nil_iff : trim new = [] ↔ trim old = [] := by
  rw [← lower_eq_nil_iff, h.lower_trim_eq, lower_eq_nil_iff]

theorem readText_eq : Statement.readText (trim new) = Statement.readText (trim old) := by
  have hlower := h.lower_trim_eq
  cases h with
  | respaced hspaced => rw [hspaced.trim_eq_trim]
  | recased _ _ hread hx => rw [hread, readText_of_lower_eq hlower hread hx]

end Restyled

/-! ## Edits -/

/-- An edit of a source text: a line put in, or an old line with its new text. -/
inductive LineEdit where
  | insert (text : String)
  | rewrite (old new : String)

namespace LineEdit

def old? : LineEdit → Option String
  | insert _ => none
  | rewrite old _ => some old

def new : LineEdit → String
  | insert text => text
  | rewrite _ new => new

/-- Whether an edit is one of style: lines put in are blank, and old lines keep their statement. -/
def IsCosmetic : LineEdit → Prop
  | insert text => ∀ c ∈ text.toList, isBlank c = true
  | rewrite old new => Restyled old.toList new.toList

end LineEdit

/-- The number that a line has after the edits: lines put in before it push it back. -/
def shifted : List LineEdit → Nat → Nat
  | [], k => k
  | .insert _ :: edits, k => shifted edits k + 1
  | .rewrite .. :: _, 0 => 0
  | .rewrite .. :: edits, k + 1 => shifted edits k + 1

/-- A line that was moved to another number, with the same letters. -/
structure SourceLine.Moved (σ : Nat → Nat) (line line' : SourceLine) : Prop where
  index : line'.index = σ line.index
  letters : lower line'.text.toList = lower line.text.toList

/-! ## All lines -/

section
variable {text : String} (i : Nat) (rest : List String)

theorem ofTextsFrom_cons_of_blank (h : trim text.toList = []) :
    SourceLine.ofTextsFrom i (text :: rest) = SourceLine.ofTextsFrom (i + 1) rest := by
  rw [SourceLine.ofTextsFrom, h]

theorem ofTextsFrom_cons (h : trim text.toList ≠ []) :
    SourceLine.ofTextsFrom i (text :: rest)
      = ⟨i, String.ofList (trim text.toList)⟩ :: SourceLine.ofTextsFrom (i + 1) rest := by
  obtain ⟨c, cs, hcons⟩ := List.exists_cons_of_ne_nil h
  rw [SourceLine.ofTextsFrom, hcons]

end

/-- **Edits of style keep all lines that are not blank**, up to their numbers and letter case, and
what is read from them.  The numbers count from the lines that the edits start at. -/
theorem forall₂_ofTextsFrom {edits : List LineEdit} (h : ∀ e ∈ edits, e.IsCosmetic) (i j : Nat) :
    List.Forall₂
      (fun line line' => (∃ k, line.index = i + k ∧ line'.index = j + shifted edits k) ∧
        lower line'.text.toList = lower line.text.toList ∧
        Statement.readText (trim line'.text.toList) = Statement.readText (trim line.text.toList))
      (SourceLine.ofTextsFrom i (edits.filterMap LineEdit.old?))
      (SourceLine.ofTextsFrom j (edits.map LineEdit.new)) := by
  induction edits generalizing i j with
  | nil => exact .nil
  | cons e edits ih =>
    rw [List.forall_mem_cons] at h
    obtain ⟨he, hrest⟩ := h
    cases e with
    | insert text =>
      rw [List.filterMap_cons_none rfl, List.map_cons, LineEdit.new,
        ofTextsFrom_cons_of_blank _ _ (trim_of_blank he)]
      refine (ih hrest i (j + 1)).imp ?_
      rintro line line' ⟨⟨k, hk, hk'⟩, hsame⟩
      exact ⟨⟨k, hk, by rw [hk', shifted]; omega⟩, hsame⟩
    | rewrite old new =>
      have hstyle : Restyled old.toList new.toList := he
      have hlater := (ih hrest (i + 1) (j + 1)).imp
        (S := fun line line' =>
          (∃ k, line.index = i + k ∧ line'.index = j + shifted (.rewrite old new :: edits) k) ∧
          lower line'.text.toList = lower line.text.toList ∧
          Statement.readText (trim line'.text.toList) = Statement.readText (trim line.text.toList))
        (by
          rintro line line' ⟨⟨k, hk, hk'⟩, hsame⟩
          exact ⟨⟨k + 1, by omega, by rw [hk', shifted]; omega⟩, hsame⟩)
      rw [List.filterMap_cons_some (f := LineEdit.old?) rfl, List.map_cons, LineEdit.new]
      by_cases hblank : trim old.toList = []
      · rw [ofTextsFrom_cons_of_blank _ _ hblank,
          ofTextsFrom_cons_of_blank _ _ (hstyle.trim_eq_nil_iff.2 hblank)]
        exact hlater
      · rw [ofTextsFrom_cons _ _ hblank,
          ofTextsFrom_cons _ _ fun hnew => hblank (hstyle.trim_eq_nil_iff.1 hnew)]
        refine .cons ⟨⟨0, rfl, rfl⟩, ?_⟩ hlater
        simp only [String.toList_ofList, trim_trim]
        exact ⟨hstyle.lower_trim_eq, hstyle.readText_eq⟩

/-! ## Restyled programs -/

/-- **Style does not change what is assembled.**  Whatever blank lines and blanks around lines are
put in, and whatever letter case lines that name no label are written in, a source text and the
restyled text assemble to the same words, labels and end of data, or fail with the same error, on
the line that the faulty line was moved to. -/
theorem same_assembly_of_restyled {edits : List LineEdit} (h : ∀ e ∈ edits, e.IsCosmetic)
    (config : Config) :
    Results (shifted edits) (SourceLine.Moved (shifted edits)) Program.SameContents
      (assemble config (SourceLine.ofTexts (edits.filterMap LineEdit.old?)))
      (assemble config (SourceLine.ofTexts (edits.map LineEdit.new))) := by
  have hlines := (forall₂_ofTextsFrom h 0 0).imp
    (S := fun line line' => SourceLine.Moved (shifted edits) line line' ∧
      Statement.readText (trim line'.text.toList) = Statement.readText (trim line.text.toList))
    (by
      rintro line line' ⟨⟨k, hk, hk'⟩, hletters, hread⟩
      rw [Nat.zero_add] at hk hk'
      exact ⟨⟨by rw [hk', hk], hletters⟩, hread⟩)
  exact relined_assemble (fun _ _ hmoved => hmoved.index) (relined_readAll hlines)

/-- A loop with a data word, and the same in another style. -/
def restyledLoop : List LineEdit :=
  [ .insert " ", .rewrite "loop:" "\tloop:", .rewrite "cmp r0, #0x1f" "CMP R0, #0X1F ",
    .rewrite "bge loop" "bge loop", .insert "", .rewrite ".word 0x1f" " .Word 0x1F" ]

/-- The loop is the same program in both styles. -/
theorem same_assembly_of_restyledLoop :
    (∀ e ∈ restyledLoop, e.IsCosmetic) ∧
    ∃ p q, assemble loopConfig
        (SourceLine.ofTexts ["loop:", "cmp r0, #0x1f", "bge loop", ".word 0x1f"]) = .ok p ∧
      assemble loopConfig (SourceLine.ofTexts
        [" ", "\tloop:", "CMP R0, #0X1F ", "bge loop", "", " .Word 0x1F"]) = .ok q ∧
      p.SameContents q := by
  have hnone : ∀ c ∈ [], isBlank c = true := List.forall_mem_nil _
  have hblank : ∀ c ∈ [' '], isBlank c = true := List.all_eq_true.1 rfl
  have htab : ∀ c ∈ ['\t'], isBlank c = true := List.all_eq_true.1 rfl
  have hcompare : Statement.readText (trim "cmp r0, #0x1f".toList)
      = .ok (.instruction ⟨"cmp", .cmp⟩ [.register .sourceZero, .immediate 0x1f]) :=
    toOption_eq_some_iff.1 (by decide +kernel)
  have hword : Statement.readText (trim ".word 0x1f".toList) = .ok (.word (.value 0x1f)) :=
    toOption_eq_some_iff.1 (by decide +kernel)
  have hcompare' : Restyled "cmp r0, #0x1f".toList "CMP R0, #0X1F ".toList := by
    have hspaced : Spaced "CMP R0, #0X1F".toList "CMP R0, #0X1F ".toList :=
      ⟨[], _, hnone, hblank, rfl⟩
    exact .recased hspaced (by decide +kernel) hcompare rfl
  have hword' : Restyled ".word 0x1f".toList " .Word 0x1F".toList := by
    have hspaced : Spaced ".Word 0x1F".toList " .Word 0x1F".toList :=
      ⟨_, [], hblank, hnone, rfl⟩
    exact .recased hspaced (by decide +kernel) hword rfl
  have hstyle : ∀ e ∈ restyledLoop, e.IsCosmetic := by
    simp only [restyledLoop, List.forall_mem_cons]
    exact ⟨hblank, .respaced ⟨_, [], htab, hnone, rfl⟩, hcompare',
      .respaced ⟨[], [], hnone, hnone, rfl⟩, hnone, hword', List.forall_mem_nil _⟩
  obtain ⟨p, hp⟩ : ∃ p, assemble loopConfig
      (SourceLine.ofTexts (restyledLoop.filterMap LineEdit.old?)) = .ok p :=
    exists_eq_ok_of_isOk (by decide +kernel)
  have hsame := same_assembly_of_restyled hstyle loopConfig
  rw [hp] at hsame
  generalize hq : assemble loopConfig (SourceLine.ofTexts (restyledLoop.map LineEdit.new)) = q
    at hsame
  cases hsame with
  | ok hpq => exact ⟨hstyle, p, _, hp, hq, hpq⟩

end FlaglessAsm
