import FlaglessAsm.Proofs.Loading
import FlaglessAsm.Proofs.Numerals
import FlaglessAsm.Proofs.Pieces

/-!
# The directive text of a program

A program travels as text with one directive on a line.  Reading that text has the effect of its
directives, and so has reading it with blank lines, comments and blanks around its lines added.

A text is cut at its line feeds, and only trimmed lines are read.  So it makes no difference whether
the last line feed ends a line or stands in front of an empty one, or whether a line feed has a
carriage return in front of it, and the effect of a text is that of its pieces
(`Image.loadLines_lines`).

## What is here

* `Directive.tokens`: the words of the line of a directive, which `Directive.read` reads back.
* `Carries`: the lines that carry a list of directives.
* `Carries.loadLines_eq`: the effect of such lines is that of the directives.
* `same_image_of_text`: the image of a text that carries a program.
-/

set_option autoImplicit false

namespace FlaglessAsm

open Text

/-! ## A directive as a line -/

namespace Directive

/-- The words of the line of a directive. -/
def tokens : Directive → List (List Char)
  | .dataWrite address high low =>
    ["dmem_write".toList, Nat.toDigits 10 address.toNat, '0' :: 'x' :: Nat.toDigits 16 high.toNat,
      '0' :: 'x' :: Nat.toDigits 16 low.toNat]
  | .dataRead address => ["dmem_read".toList, Nat.toDigits 10 address.toNat]
  | .instructionWrite address word =>
    ["imem_write".toList, Nat.toDigits 10 address.toNat, '0' :: 'x' :: Nat.toDigits 16 word.toNat]
  | .pcReset => ["pcreset".toList]
  | .step => ["step".toList]
  | .run enable => ["run".toList, [if enable then '1' else '0']]

theorem toList_render (d : Directive) : d.render.toList = [' '].intercalate d.tokens := by
  cases d with
  | dataWrite address high low =>
    show ("dmem_write " ++ decimal address.toNat ++ " " ++ hex high.toNat ++ " "
      ++ hex low.toNat).toList = _
    simp [tokens, toList_decimal, toList_hex, List.intercalate_cons_cons]
  | dataRead address =>
    show ("dmem_read " ++ decimal address.toNat).toList = _
    simp [tokens, toList_decimal, List.intercalate_cons_cons]
  | instructionWrite address word =>
    show ("imem_write " ++ decimal address.toNat ++ " " ++ hex word.toNat).toList = _
    simp [tokens, toList_decimal, toList_hex, List.intercalate_cons_cons]
  | pcReset => rfl
  | step => rfl
  | run enable => cases enable <;> rfl

theorem isBlank_of_mem_toDigits {radix : Nat} (hone : 1 < radix) (hradix : radix ≤ 16) (n : Nat) :
    ∀ c ∈ Nat.toDigits radix n, isBlank c = false :=
  forall_mem_toDigits hone (fun m hm => isBlank_digitChar m (by omega)) n

theorem isWord_decimal (n : Nat) : IsWord (Nat.toDigits 10 n) :=
  ⟨Nat.toDigits_ne_nil, isBlank_of_mem_toDigits (by decide) (by decide) n⟩

theorem isWord_hex (n : Nat) : IsWord ('0' :: 'x' :: Nat.toDigits 16 n) := by
  refine ⟨List.cons_ne_nil _ _, ?_⟩
  rw [List.forall_mem_cons, List.forall_mem_cons]
  exact ⟨by decide, by decide, isBlank_of_mem_toDigits (by decide) (by decide) n⟩

theorem isWord_of_mem_tokens (d : Directive) : ∀ w ∈ d.tokens, IsWord w := by
  cases d with
  | dataWrite address high low =>
    simp only [tokens, List.forall_mem_cons]
    exact ⟨by decide, isWord_decimal _, isWord_hex _, isWord_hex _, List.forall_mem_nil _⟩
  | dataRead address =>
    simp only [tokens, List.forall_mem_cons]
    exact ⟨by decide, isWord_decimal _, List.forall_mem_nil _⟩
  | instructionWrite address word =>
    simp only [tokens, List.forall_mem_cons]
    exact ⟨by decide, isWord_decimal _, isWord_hex _, List.forall_mem_nil _⟩
  | pcReset =>
    simp only [tokens, List.forall_mem_cons]
    exact ⟨by decide, List.forall_mem_nil _⟩
  | step =>
    simp only [tokens, List.forall_mem_cons]
    exact ⟨by decide, List.forall_mem_nil _⟩
  | run enable =>
    simp only [tokens, List.forall_mem_cons]
    exact ⟨by decide, by cases enable <;> decide, List.forall_mem_nil _⟩

theorem words_render (d : Directive) : words d.render.toList = d.tokens := by
  rw [toList_render, words_intercalate d.isWord_of_mem_tokens]

/-- A line with the words of a directive is read as that directive, whatever blanks it has. -/
theorem read_of_words_eq {line : List Char} {d : Directive} (h : words line = d.tokens) :
    read line = .ok d := by
  rw [read, h]
  cases d with
  | dataWrite address high low =>
    simp only [tokens, String.ofList_toList, ofWords?, number?_decimal, number?_hex]
    rfl
  | dataRead address =>
    simp only [tokens, String.ofList_toList, ofWords?, number?_decimal]
    rfl
  | instructionWrite address word =>
    simp only [tokens, String.ofList_toList, ofWords?, number?_decimal, number?_hex]
    rfl
  | pcReset => rfl
  | step => rfl
  | run enable => cases enable <;> rfl

/-- The line of a directive starts like neither a blank line nor a comment. -/
theorem exists_render_eq_cons (d : Directive) :
    ∃ c s, d.render.toList = c :: s ∧ isBlank c = false ∧ c ≠ '#' := by
  rw [toList_render]
  cases d with
  | dataWrite | dataRead | instructionWrite | pcReset | step | run =>
    exact ⟨_, _, rfl, by decide, by decide⟩

end Directive

/-! ## Lines that carry directives -/

/-- The lines that carry a list of directives: each directive has a line of its own, which may have
blanks around it, and there are blank lines and comments besides. -/
inductive Carries : List Directive → List (List Char) → Prop
  | nil : Carries [] []
  | blank {ds : List Directive} {rest : List (List Char)} {line : List Char}
      (hline : ∀ c ∈ line, isBlank c = true) (h : Carries ds rest) : Carries ds (line :: rest)
  | comment {ds : List Directive} {rest : List (List Char)} {indent : List Char}
      (text : List Char) (hindent : ∀ c ∈ indent, isBlank c = true) (h : Carries ds rest) :
      Carries ds ((indent ++ '#' :: text) :: rest)
  | directive {ds : List Directive} {rest : List (List Char)} {indent tail : List Char}
      (d : Directive) (hindent : ∀ c ∈ indent, isBlank c = true)
      (htail : ∀ c ∈ tail, isBlank c = true) (h : Carries ds rest) :
      Carries (d :: ds) ((indent ++ d.render.toList ++ tail) :: rest)

/-- The lines of directives carry them, also with an empty line at the end. -/
theorem carries_map_render (ds : List Directive) :
    Carries ds (ds.map (fun d => d.render.toList) ++ [[]]) := by
  induction ds with
  | nil => exact .blank (List.forall_mem_nil _) .nil
  | cons d ds ih =>
    have hcarries := Carries.directive d (List.forall_mem_nil _) (List.forall_mem_nil _) ih
    rwa [List.nil_append, List.append_nil] at hcarries

/-! ## The effect of lines -/

namespace Image

theorem loadLines_cons_of_skipped {line : List Char} (h : isSkipped (trim line) = true)
    (number : Nat) (rest : List (List Char)) :
    loadLines number (line :: rest) = loadLines (number + 1) rest := by
  rw [loadLines, h]
  rfl

theorem loadLines_cons_of_read {line : List Char} {d : Directive}
    (hskip : isSkipped (trim line) = false) (hread : Directive.read (trim line) = .ok d)
    (number : Nat) (rest : List (List Char)) :
    loadLines number (line :: rest) = apply d *> loadLines (number + 1) rest := by
  rw [loadLines, hskip, hread]
  rfl

/-- The effect of lines depends on the trimmed lines only. -/
theorem loadLines_congr {ls ls' : List (List Char)} (h : ls.map trim = ls'.map trim)
    (number : Nat) : loadLines number ls = loadLines number ls' := by
  induction ls generalizing ls' number with
  | nil => rw [List.map_eq_nil_iff.1 h.symm]
  | cons line rest ih =>
    obtain ⟨line', rest', rfl, hline, hrest⟩ := List.map_eq_cons_iff.1 h.symm
    rw [loadLines, loadLines, hline]
    simp only [ih hrest.symm]

/-- An empty line at the end has no effect. -/
theorem loadLines_append_nil (ls : List (List Char)) (number : Nat) :
    loadLines number (ls ++ [[]]) = loadLines number ls := by
  induction ls generalizing number with
  | nil => rfl
  | cons line rest ih =>
    rw [List.cons_append, loadLines, loadLines]
    simp only [ih]

/-- The effect of a text is that of the pieces between its line feeds. -/
theorem loadLines_lines (number : Nat) (s : List Char) :
    loadLines number (lines s) = loadLines number (s.splitOn '\n') := by
  have hpieces : splitWhere (· == '\n') s = s.splitOn '\n' := splitWhere_eq_splitOnP _ s
  have hended : ∀ ls : List (List Char), (ls.map dropReturn).map trim = ls.map trim := by
    intro ls
    simp
  obtain ⟨front, last, hsplit⟩ : ∃ front last, s.splitOn '\n' = front ++ [last] :=
    ⟨_, _, (List.dropLast_concat_getLast (List.splitOn_ne_nil '\n' s)).symm⟩
  rw [lines, hpieces, hsplit, List.dropLast_concat, List.getLast?_concat]
  -- An empty piece behind the last line feed is no line, but it would be skipped if it were one.
  cases last with
  | nil => rw [loadLines_append_nil, loadLines_congr (hended front)]
  | cons c cs =>
    refine loadLines_congr ?_ number
    rw [List.map_append, List.map_append, hended]

/-- A directive has its effect on an image that is not strict. -/
theorem exists_apply {img : Image} (hstrict : img.strict = false) (d : Directive) :
    ∃ img', apply d img = .ok () img' ∧ img'.strict = false ∧
      img'.resets = img.resets + UInt32.ofNat ([d].count .pcReset) ∧
      img'.steps = img.steps + UInt32.ofNat ([d].count .step) := by
  cases d with
  | instructionWrite address word =>
    exact ⟨_, writeInstruction_of_not_refused (by rw [hstrict, Bool.and_false]) word, hstrict,
      (UInt32.add_zero _).symm, (UInt32.add_zero _).symm⟩
  | pcReset => exact ⟨_, rfl, hstrict, rfl, (UInt32.add_zero _).symm⟩
  | step => exact ⟨_, rfl, hstrict, (UInt32.add_zero _).symm, rfl⟩
  | dataWrite | dataRead | run =>
    exact ⟨_, rfl, hstrict, (UInt32.add_zero _).symm, (UInt32.add_zero _).symm⟩

/-- So do any directives, and the image counts the resets and the steps. -/
theorem exists_load {img : Image} (hstrict : img.strict = false) (ds : List Directive) :
    ∃ img', load ds img = .ok () img' ∧
      img'.resets = img.resets + UInt32.ofNat (ds.count .pcReset) ∧
      img'.steps = img.steps + UInt32.ofNat (ds.count .step) := by
  induction ds generalizing img with
  | nil => exact ⟨img, rfl, (UInt32.add_zero _).symm, (UInt32.add_zero _).symm⟩
  | cons d ds ih =>
    obtain ⟨mid, happly, hmid, hresets, hsteps⟩ := exists_apply hstrict d
    obtain ⟨img', hload, hresets', hsteps'⟩ := ih hmid
    refine ⟨img', bind_eq_ok_iff.2 ⟨(), mid, happly, hload⟩, ?_, ?_⟩
    · rw [hresets', hresets, UInt32.add_assoc, ← UInt32.ofNat_add, ← List.count_append]
      rfl
    · rw [hsteps', hsteps, UInt32.add_assoc, ← UInt32.ofNat_add, ← List.count_append]
      rfl

end Image

/-- The effect of lines that carry directives is that of the directives. -/
theorem Carries.loadLines_eq {ds : List Directive} {ls : List (List Char)} (h : Carries ds ls)
    (number : Nat) : Image.loadLines number ls = Image.load ds := by
  induction h generalizing number with
  | nil => rfl
  | blank hline _ ih =>
    rw [Image.loadLines_cons_of_skipped (by rw [trim_of_blank hline]; rfl), ih]
  | comment text hindent _ ih =>
    rw [Image.loadLines_cons_of_skipped (by rw [trim_append_cons hindent (by decide)]; rfl), ih]
  | @directive ds rest indent tail d hindent htail _ ih =>
    obtain ⟨c, s, hrender, hc, hcomment⟩ := d.exists_render_eq_cons
    have htrim : trim (indent ++ d.render.toList ++ tail) = c :: trimRight (s ++ tail) := by
      rw [hrender, List.append_assoc, List.cons_append, trim_append_cons hindent hc]
    have hskip : Image.isSkipped (trim (indent ++ d.render.toList ++ tail)) = false := by
      rw [htrim]
      exact beq_eq_false_iff_ne.2 hcomment
    -- The trimmed line has the words of the line of `d`, and reading looks at nothing else.
    have hwords : words (trim (indent ++ d.render.toList ++ tail)) = d.tokens := by
      rw [htrim, ← trimRight_cons hc, words_trimRight, ← List.cons_append, ← hrender,
        words_append_of_blank htail, d.words_render]
    rw [Image.loadLines_cons_of_read hskip (Directive.read_of_words_eq hwords), ih]
    rfl

/-! ## The text of a program -/

/-- A text that carries directives has the image of these directives. -/
theorem Carries.ofText_eq {ds : List Directive} {ls : List (List Char)} (h : Carries ds ls)
    (hls : ∀ l ∈ ls, '\n' ∉ l) {img : Image} (hload : Image.load ds {} = .ok () img) :
    Image.ofText (String.ofList (['\n'].intercalate ls)) = .ok img := by
  have hlines : Image.loadLines 1 (lines (['\n'].intercalate ls)) = Image.load ds := by
    rw [Image.loadLines_lines]
    by_cases hnil : ls = []
    · subst hnil
      exact h.loadLines_eq 1
    · rw [List.splitOn_intercalate '\n' hls hnil, h.loadLines_eq]
  rw [Image.ofText, String.toList_ofList, hlines, EStateM.run, hload]

theorem toList_foldl_render (ds : List Directive) (text : String) :
    (ds.foldl (fun text d => text ++ d.render ++ "\n") text).toList =
      text.toList ++ ['\n'].intercalate (ds.map (fun d => d.render.toList) ++ [[]]) := by
  induction ds generalizing text with
  | nil => simp
  | cons d ds ih =>
    rw [List.foldl_cons, ih, List.map_cons, List.cons_append,
      List.intercalate_cons_of_ne_nil (by simp)]
    simp

/-- The text of a program has the lines of its directives. -/
theorem Program.render_eq (p : Program) :
    p.render = String.ofList
      (['\n'].intercalate (p.words.toList.map (fun d => d.render.toList) ++ [[]])) := by
  rw [← String.toList_inj, String.toList_ofList, Program.render, ← Array.foldl_toList,
    toList_foldl_render]
  rfl

theorem not_mem_of_mem_map_render (ds : List Directive) :
    ∀ l ∈ ds.map (fun d => d.render.toList) ++ [[]], '\n' ∉ l := by
  intro l hl
  rcases List.mem_append.1 hl with hl | hl
  · obtain ⟨d, -, rfl⟩ := List.mem_map.1 hl
    rw [d.toList_render]
    exact not_mem_intercalate (by decide) (by decide) d.isWord_of_mem_tokens
  · rw [List.mem_singleton.1 hl]
    exact List.not_mem_nil

/-- The image of the text of a program is the one that its directives load. -/
theorem Program.ofText_render (p : Program) {img : Image}
    (h : Image.load p.words.toList {} = .ok () img) : Image.ofText p.render = .ok img := by
  rw [p.render_eq]
  exact (carries_map_render _).ofText_eq (not_mem_of_mem_map_render _) h

/-- **The text of a program carries it faithfully.**  The line of a directive is read back as that
directive.  Any directives can be loaded into a new image, which counts resets and steps modulo
`2 ^ 32`, and the image of their text is the one they load, also when blank lines, comments, and
blanks around lines are added to the text. -/
theorem same_image_of_text :
    (∀ d : Directive, Directive.read d.render.toList = .ok d) ∧
      ∀ p : Program, ∃ img : Image, Image.load p.words.toList {} = .ok () img ∧
        img.resets = UInt32.ofNat (p.words.toList.count .pcReset) ∧
        img.steps = UInt32.ofNat (p.words.toList.count .step) ∧
        Image.ofText p.render = .ok img ∧
        ∀ ls : List (List Char), Carries p.words.toList ls → (∀ l ∈ ls, '\n' ∉ l) →
          Image.ofText (String.ofList (['\n'].intercalate ls)) = .ok img := by
  refine ⟨fun d => Directive.read_of_words_eq d.words_render, fun p => ?_⟩
  obtain ⟨img, hload, hresets, hsteps⟩ := @Image.exists_load {} rfl p.words.toList
  refine ⟨img, hload, hresets.trans (UInt32.zero_add _), hsteps.trans (UInt32.zero_add _),
    p.ofText_render hload, ?_⟩
  intro ls hcarries hls
  exact hcarries.ofText_eq hls hload

/-- A program that writes one instruction word. -/
def nopProgram : Program where
  words := #[.pcReset, .instructionWrite 0 nopWord, .step, .run true]
  symbols := {}
  dataBoundary := none

/-- A text of that program with a comment, a blank line, indented lines, a carriage return and no
line feed at the end. -/
def nopText : String :=
  "  # one word\n\n\tpcreset\nimem_write 0 0xe1a00000 \r\n step\n\u2003run 1"

/-- The lines of that text. -/
def nopLines : List (List Char) :=
  ["  ".toList ++ '#' :: " one word".toList, [],
    "\t".toList ++ Directive.pcReset.render.toList ++ [],
    [] ++ (Directive.instructionWrite 0 nopWord).render.toList ++ " \r".toList,
    " ".toList ++ Directive.step.render.toList ++ [],
    "\u2003".toList ++ (Directive.run true).render.toList ++ []]

theorem carries_nopLines : Carries nopProgram.words.toList nopLines := by
  have hnil : ∀ c ∈ ([] : List Char), isBlank c = true := List.forall_mem_nil _
  refine .comment _ (List.all_eq_true.1 rfl) (.blank hnil ?_)
  refine .directive .pcReset (List.all_eq_true.1 rfl) hnil ?_
  refine .directive (.instructionWrite 0 nopWord) hnil (List.all_eq_true.1 rfl) ?_
  refine .directive .step (List.all_eq_true.1 rfl) hnil ?_
  exact .directive (.run true) (List.all_eq_true.1 rfl) hnil .nil

theorem intercalate_nopLines : String.ofList (['\n'].intercalate nopLines) = nopText := by
  decide +kernel

theorem same_image_of_nopText :
    ∃ img : Image, Image.load nopProgram.words.toList {} = .ok () img ∧ img.resets = 1 ∧
      Image.ofText nopText = .ok img := by
  obtain ⟨img, hload, hresets, -, -, htext⟩ := same_image_of_text.2 nopProgram
  have hnewline : ∀ l ∈ nopLines, '\n' ∉ l := by decide +kernel
  have hcount : nopProgram.words.toList.count .pcReset = 1 := by decide
  refine ⟨img, hload, by rw [hresets, hcount]; rfl, ?_⟩
  rw [← intercalate_nopLines]
  exact htext nopLines carries_nopLines hnewline

end FlaglessAsm
