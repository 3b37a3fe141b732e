import FlaglessAsm.Proofs.Loading

/-!
# Words that are written twice

A strict image refuses a second write to an instruction address, but the word is in place by the
time the write is refused.  So a refused directive is not without effect: the word at its address is
replaced, and nothing else changes.  A list of directives stops there, and hence every instruction
address but that one keeps the first word that it is given.

## What is here

* `Directive.written?`, `firstWord?`: what directives write to an instruction address.
* `Image.Unchanged`: two images that nothing tells apart.
* `Image.apply_eq_error_iff`, `Image.getElem?_of_apply_eq_ok`: one directive, refused or taken.
* `Image.getElem?_of_load_eq_ok`, `Image.load_eq_error_iff`: the same for a list of them.
* `Image.refused_write_replaces_word`: what is left behind by a refused write.
-/

set_option autoImplicit false

namespace FlaglessAsm

open Std

/-! ## Writes to an instruction address -/

/-- The word that a directive writes to an instruction address. -/
def Directive.written? (a : Address) : Directive → Option Word
  | .instructionWrite address word => if address = a then some word else none
  | _ => none

/-- The first word that is written to an instruction address. -/
def firstWord? (a : Address) (ds : List Directive) : Option Word :=
  ds.findSome? (·.written? a)

theorem firstWord?_cons (a : Address) (d : Directive) (ds : List Directive) :
    firstWord? a (d :: ds) = (d.written? a).or (firstWord? a ds) := by
  rw [firstWord?, List.findSome?_cons]
  cases d.written? a <;> rfl

namespace Image

/-- Two images that nothing tells apart: they hold the same instruction words, and agree in all
else. -/
def Unchanged (img after : Image) : Prop :=
  after = { img with instructions := after.instructions } ∧
    ∀ a : Address, after.instructions[a]? = img.instructions[a]?

/-! ## One directive -/

section
variable {img after : Image} {d : Directive} {ds : List Directive} {e : ImageError}

/-- A second write to an instruction address is refused with the word in place. -/
theorem writeInstruction_of_refused {a : Address} {old : Word} (hstrict : img.strict = true)
    (hold : img.instructions[a]? = some old) (word : Word) :
    writeInstruction a word img
      = .error (.writtenTwice a) { img with instructions := img.instructions.insert a word } := by
  have hcontains : img.instructions.contains a = true := by
    rw [TreeMap.contains_eq_isSome_getElem?, hold]
    rfl
  refine bind_eq_error_iff.2 (.inr ⟨img, img, rfl, bind_eq_error_iff.2 (.inr ⟨(), _, rfl,
    bind_eq_error_iff.2 (.inr ⟨_, _, rfl, ?_⟩)⟩)⟩)
  exact congrFun (if_pos (by rw [hcontains]; exact hstrict)) _

/-- **A directive is refused** exactly if it writes to an instruction address of a strict image that
holds a word already.  What it leaves behind is the image with the new word. -/
theorem apply_eq_error_iff : apply d img = .error e after ↔
    ∃ a old word, d = .instructionWrite a word ∧ img.strict = true ∧
      img.instructions[a]? = some old ∧ e = .writtenTwice a ∧
      after = { img with instructions := img.instructions.insert a word } := by
  constructor
  · intro h
    cases d with
    | instructionWrite a word =>
      by_cases hrefused : (img.instructions.contains a && img.strict) = true
      · obtain ⟨hcontains, hstrict⟩ := Bool.and_eq_true_iff.1 hrefused
        rw [TreeMap.contains_eq_isSome_getElem?] at hcontains
        obtain ⟨old, hold⟩ := Option.isSome_iff_exists.1 hcontains
        obtain ⟨rfl, rfl⟩ := EStateM.Result.error.inj
          ((writeInstruction_of_refused hstrict hold word).symm.trans h)
        exact ⟨a, old, word, rfl, hstrict, hold, rfl, rfl⟩
      · have hok := writeInstruction_of_not_refused (Bool.eq_false_iff.2 hrefused) word
        cases hok.symm.trans h
    | dataWrite | dataRead | pcReset | step | run => cases h
  · rintro ⟨a, old, word, rfl, hstrict, hold, rfl, rfl⟩
    exact writeInstruction_of_refused hstrict hold word

/-- A directive that a strict image takes writes to an instruction address that held no word. -/
theorem getElem?_of_apply_eq_ok (hstrict : img.strict = true) (h : apply d img = .ok () after) :
    after.strict = true ∧
      ∀ a : Address, after.instructions[a]? = (img.instructions[a]?).or (d.written? a) := by
  cases d with
  | instructionWrite address word =>
    cases hold : img.instructions[address]? with
    | some old => cases (writeInstruction_of_refused hstrict hold word).symm.trans h
    | none =>
      have hfree : (img.instructions.contains address && img.strict) = false := by
        rw [TreeMap.contains_eq_isSome_getElem?, hold]
        rfl
      obtain ⟨-, rfl⟩ := EStateM.Result.ok.inj
        ((writeInstruction_of_not_refused hfree word).symm.trans h)
      refine ⟨hstrict, fun a => ?_⟩
      rw [TreeMap.getElem?_insert, Directive.written?]
      by_cases ha : address = a
      · subst ha
        simp [hold]
      · simp [ha]
  | dataWrite | dataRead | pcReset | step | run =>
    obtain ⟨-, rfl⟩ := EStateM.Result.ok.inj h
    exact ⟨hstrict, fun a => (Option.or_none).symm⟩

/-! ## Lists of directives -/

/-- **Directives that a strict image takes** leave every instruction address with the first word
that it is given. -/
theorem getElem?_of_load_eq_ok (hstrict : img.strict = true) (h : load ds img = .ok () after) :
    after.strict = true ∧
      ∀ a : Address, after.instructions[a]? = (img.instructions[a]?).or (firstWord? a ds) := by
  induction ds generalizing img with
  | nil =>
    obtain ⟨-, rfl⟩ := EStateM.Result.ok.inj h
    exact ⟨hstrict, fun a => (Option.or_none).symm⟩
  | cons d ds ih =>
    obtain ⟨_, mid, happly, hload⟩ := bind_eq_ok_iff.1 h
    obtain ⟨hmid, hwords⟩ := getElem?_of_apply_eq_ok hstrict happly
    obtain ⟨hafter, hwords'⟩ := ih hmid hload
    refine ⟨hafter, fun a => ?_⟩
    rw [hwords' a, hwords a, firstWord?_cons, Option.or_assoc]

/-- **A list of directives is refused** at the first one that is, behind others that are taken. -/
theorem load_eq_error_iff : load ds img = .error e after ↔
    ∃ front d rest mid, ds = front ++ d :: rest ∧ load front img = .ok () mid ∧
      apply d mid = .error e after := by
  constructor
  · intro h
    induction ds generalizing img with
    | nil => cases h
    | cons d ds ih =>
      rcases bind_eq_error_iff.1 h with happly | ⟨_, mid, happly, hload⟩
      · exact ⟨[], d, ds, img, rfl, rfl, happly⟩
      · obtain ⟨front, d', rest, mid', rfl, hfront, hrefused⟩ := ih hload
        refine ⟨d :: front, d', rest, mid', rfl, ?_, hrefused⟩
        exact bind_eq_ok_iff.2 ⟨(), mid, happly, hfront⟩
  · rintro ⟨front, d, rest, mid, rfl, hfront, hrefused⟩
    rw [load_append]
    refine bind_eq_error_iff.2 (.inr ⟨(), mid, hfront, ?_⟩)
    exact bind_eq_error_iff.2 (.inl hrefused)

end

/-! ## What a refused write leaves behind -/

/-- A refused write goes unnoticed only if it repeats the word in place. -/
theorem unchanged_insert_iff {img : Image} {a : Address} {old : Word}
    (hold : img.instructions[a]? = some old) (word : Word) :
    Unchanged img { img with instructions := img.instructions.insert a word } ↔ word = old := by
  constructor
  · rintro ⟨-, hwords⟩
    have hword := hwords a
    rw [TreeMap.getElem?_insert_self, hold] at hword
    exact Option.some.inj hword
  · rintro rfl
    refine ⟨rfl, fun b => ?_⟩
    show (img.instructions.insert a word)[b]? = _
    rw [TreeMap.getElem?_insert]
    split
    · rename_i hab
      rw [← LawfulEqCmp.eq_of_compare hab, hold]
    · rfl

/-- **A refused write replaces one word, and nothing else.**  A directive is refused exactly if it
writes to an instruction address of a strict image that holds a word; the image is then the old one
with the new word in place, so it is unchanged only if the two words are the same.  When a strict
image takes a list of directives, every instruction address keeps its first word, be it one of the
image or one of the directives.  When it does not, the list stops behind the first refused write:
the address of that write has lost its first word to the refused one, and every other address has
kept its own. -/
theorem refused_write_replaces_word (img : Image) :
    (∀ d e after, apply d img = .error e after ↔
      ∃ a old word, d = .instructionWrite a word ∧ img.strict = true ∧
        img.instructions[a]? = some old ∧ e = .writtenTwice a ∧
        after = { img with instructions := img.instructions.insert a word }) ∧
    (∀ a old word e after, img.instructions[a]? = some old →
      apply (.instructionWrite a word) img = .error e after →
        (Unchanged img after ↔ word = old)) ∧
    (img.strict = true → ∀ ds,
      (∀ after, load ds img = .ok () after → ∀ a : Address,
        after.instructions[a]? = (img.instructions[a]?).or (firstWord? a ds)) ∧
      ∀ e after, load ds img = .error e after → ∃ front a word rest mid,
        ds = front ++ .instructionWrite a word :: rest ∧ e = .writtenTwice a ∧
        load front img = .ok () mid ∧
        after = { mid with instructions := mid.instructions.insert a word } ∧
        ((img.instructions[a]?).or (firstWord? a front)).isSome ∧
        after.instructions[a]? = some word ∧
        ∀ b, b ≠ a →
          after.instructions[b]? = (img.instructions[b]?).or (firstWord? b front)) := by
  refine ⟨fun d e after => apply_eq_error_iff, ?_, fun hstrict ds => ⟨fun after h => ?_, ?_⟩⟩
  · intro a old word e after hold h
    obtain ⟨a', old', word', hd, -, -, -, rfl⟩ := apply_eq_error_iff.1 h
    obtain ⟨rfl, rfl⟩ := Directive.instructionWrite.inj hd
    exact unchanged_insert_iff hold word
  · exact (getElem?_of_load_eq_ok hstrict h).2
  · intro e after h
    obtain ⟨front, d, rest, mid, hds, hfront, hrefused⟩ := load_eq_error_iff.1 h
    obtain ⟨a, old, word, rfl, -, hold, he, rfl⟩ := apply_eq_error_iff.1 hrefused
    obtain ⟨-, hwords⟩ := getElem?_of_load_eq_ok hstrict hfront
    refine ⟨front, a, word, rest, mid, hds, he, hfront, rfl, ?_, ?_, fun b hb => ?_⟩
    · rw [← hwords a, hold]
      rfl
    · exact TreeMap.getElem?_insert_self
    · show (mid.instructions.insert a word)[b]? = _
      rw [TreeMap.getElem?_insert, if_neg fun hab => hb (LawfulEqCmp.eq_of_compare hab).symm]
      exact hwords b

/-- Writes to two addresses, with a second one to the first of them. -/
def doubledWrites : List Directive :=
  [ .instructionWrite 3 1, .instructionWrite 5 7, .instructionWrite 3 2 ]

/-- The second write to address three is refused and has replaced the word there.  The one at
address five is as it was. -/
theorem refused_write_of_doubledWrites :
    ∃ after, load doubledWrites { strict := true } = .error (.writtenTwice 3) after ∧
      after.instructions[(3 : Address)]? = some 2 ∧
      after.instructions[(5 : Address)]? = some 7 := by
  obtain ⟨after, hafter⟩ : ∃ after, load doubledWrites { strict := true }
      = .error (.writtenTwice 3) after := ⟨_, rfl⟩
  obtain ⟨-, -, hload⟩ := refused_write_replaces_word { strict := true }
  obtain ⟨front, a, word, rest, mid, hds, he, -, -, hfirst, hword, hothers⟩ :=
    (hload rfl doubledWrites).2 _ after hafter
  obtain rfl : 3 = a := ImageError.writtenTwice.inj he
  -- Only behind the first two writes does a word at address three get in the way.
  obtain ⟨rfl, rfl⟩ : front = doubledWrites.take 2 ∧ word = 2 := by
    rcases front with _ | ⟨d, _ | ⟨d', front⟩⟩
    · simp [firstWord?] at hfirst
    · simp [doubledWrites] at hds
    · obtain ⟨rfl, htail⟩ := List.cons.inj hds
      obtain ⟨rfl, hsecond⟩ := List.cons.inj htail
      rcases List.singleton_eq_append_iff.1 hsecond with ⟨rfl, hlast⟩ | ⟨-, hlast⟩
      · exact ⟨rfl, (Directive.instructionWrite.inj (List.cons.inj hlast).1).2⟩
      · simp at hlast
  exact ⟨after, hafter, hword, (hothers 5 (by decide)).trans (by decide +kernel)⟩

/-- **A refused write is not without effect.**  The image holds the word that it has refused. -/
theorem word_lost_of_refused_write :
    ∃ (img after : Image) (d : Directive) (e : ImageError),
      apply d img = .error e after ∧ ¬ Unchanged img after ∧
      load [.instructionWrite 3 1, d] { strict := true } = .error e after ∧
      after.instructions[(3 : Address)]? ≠ firstWord? 3 [.instructionWrite 3 1, d] := by
  refine ⟨{ instructions := TreeMap.insert ∅ 3 1, strict := true }, _, .instructionWrite 3 2,
    .writtenTwice 3, rfl, ?_, rfl, ?_⟩
  · rintro ⟨-, hwords⟩
    have hthree := hwords 3
    revert hthree
    decide +kernel
  · decide +kernel

end Image
end FlaglessAsm
