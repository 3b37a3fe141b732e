import FlaglessAsm.Proofs.OperandLists

/-!
# Splitting at commas outside brackets

A list of operands is split in one scan, which keeps a stack of the brackets that are open.  What
the scan finds out is a matter of the text alone: where the brackets nest, the text falls in just
one way into nested pieces with commas between them; where they do not, either a closing bracket
does not match the innermost open one, or the text ends inside a bracket.  To every part of a text
that the scan has passed without an error belongs a stack, and `LeavesOpen` says which, without the
scan.

## What is here

* `LeavesOpen`, `Mismatched`: text that ends inside brackets, and text with a bracket that does not
  match.
* `leavesOpen_or_mismatched`: there is no other text.
* `Nested.exists_pieces`, `ArePieces`: nested text in pieces.
* `Nested.trim`: nested text without the blanks around it.
* `operands_split_exactly`: what splitting does to any text.
-/

set_option autoImplicit false

namespace FlaglessAsm

open Text

/-! ## Brackets that are left open -/

/-- Text that leaves brackets open, innermost first.  What stands in front of them, between them and
behind them nests. -/
inductive LeavesOpen : List Bracket → List Char → Prop
  | nil {s : List Char} (h : Nested true s) : LeavesOpen [] s
  | cons {stack : List Bracket} {s t : List Char} (bracket : Bracket) (hs : LeavesOpen stack s)
      (ht : Nested true t) : LeavesOpen (bracket :: stack) (s ++ bracket.opening :: t)

/-- Text with a closing bracket that does not match the innermost open one. -/
def Mismatched (s : List Char) : Prop :=
  ∃ front bracket rest stack, s = front ++ bracket.closing :: rest ∧ LeavesOpen stack front ∧
    stack.head? ≠ some bracket

section
variable {stack : List Bracket} {s t : List Char} {bracket : Bracket}

theorem LeavesOpen.append (h : LeavesOpen stack s) (ht : Nested true t) :
    LeavesOpen stack (s ++ t) := by
  cases h with
  | nil h => exact .nil (h.append ht)
  | cons bracket hs h =>
    rw [List.append_assoc, List.cons_append]
    exact .cons bracket hs (h.append ht)

theorem LeavesOpen.close (h : LeavesOpen (bracket :: stack) s) :
    LeavesOpen stack (s ++ [bracket.closing]) := by
  cases h with
  | cons _ hs ht =>
    rw [List.append_assoc, List.cons_append]
    exact hs.append (.bracketed bracket ht .nil)

/-- A character is an opening bracket, a closing bracket or none. -/
theorem Bracket.cases_char (c : Char) :
    (∃ bracket : Bracket, c = bracket.opening) ∨ (∃ bracket : Bracket, c = bracket.closing) ∨
      Bracket.ofOpening? c = none ∧ Bracket.ofClosing? c = none := by
  by_cases hopening : ∃ bracket : Bracket, c = bracket.opening
  · exact .inl hopening
  by_cases hclosing : ∃ bracket : Bracket, c = bracket.closing
  · exact .inr (.inl hclosing)
  simp only [not_exists] at hopening hclosing
  refine .inr (.inr ⟨?_, ?_⟩)
  · rw [ofOpening?, if_neg (hopening _), if_neg (hopening _)]
  · rw [ofClosing?, if_neg (hclosing _), if_neg (hclosing _)]

/-- **Every text leaves some brackets open, unless one of its brackets does not match.** -/
theorem leavesOpen_or_mismatched (s : List Char) :
    (∃ stack, LeavesOpen stack s) ∨ Mismatched s := by
  induction s using List.reverseRecOn with
  | nil => exact .inl ⟨[], .nil .nil⟩
  | append_singleton s c ih =>
    rcases ih with ⟨stack, hs⟩ | ⟨front, bracket, rest, stack, rfl, hfront, hbracket⟩
    · rcases Bracket.cases_char c with ⟨bracket, rfl⟩ | ⟨bracket, rfl⟩ | ⟨hopening, hclosing⟩
      · exact .inl ⟨bracket :: stack, .cons bracket hs .nil⟩
      · by_cases hmatch : stack.head? = some bracket
        · obtain ⟨stack, rfl⟩ := List.head?_eq_some_iff.1 hmatch
          exact .inl ⟨stack, hs.close⟩
        · exact .inr ⟨s, bracket, [], stack, rfl, hs, hmatch⟩
      · exact .inl ⟨stack, hs.append (.cons hopening hclosing (fun _ => rfl) .nil)⟩
    · exact .inr ⟨front, bracket, rest ++ [c], stack, by simp, hfront, hbracket⟩

end

/-! ## What the scan does to them -/

section
variable {stack : List Bracket} {s : List Char} {bracket : Bracket}

/-- Nested text is passed without a bracket left open, whatever commas it has. -/
theorem exists_topLevelLoop_of_nested (h : Nested true s) (piece : List Char)
    (done : List (List Char)) :
    ∃ piece' done', ∀ cs, topLevelLoop (s ++ cs) [] piece done
      = topLevelLoop cs [] piece' done' := by
  generalize hinside : true = inside at h
  induction h generalizing piece done with
  | nil => exact ⟨piece, done, fun cs => rfl⟩
  | @cons inside c s hopening hclosing _ _ ih =>
    by_cases hcomma : c = ','
    · subst hcomma
      exact ih [] (piece.reverse :: done) hinside
    · obtain ⟨piece', done', hloop⟩ := ih (c :: piece) done hinside
      refine ⟨piece', done', fun cs => ?_⟩
      rw [List.cons_append, topLevelLoop_cons hopening hclosing fun _ => hcomma, hloop]
  | @bracketed inside bracket inner s hinner _ _ ih =>
    obtain ⟨piece', done', hloop⟩ :=
      ih (bracket.closing :: (inner.reverse ++ bracket.opening :: piece)) done hinside
    refine ⟨piece', done', fun cs => ?_⟩
    rw [List.cons_append, topLevelLoop_opening, List.append_assoc, List.cons_append,
      topLevelLoop_append hinner (by simp), topLevelLoop_closing, hloop]

/-- **The scan keeps the brackets that a text leaves open.** -/
theorem exists_topLevelLoop_of_leavesOpen (h : LeavesOpen stack s) :
    ∃ piece done, ∀ cs, topLevelLoop (s ++ cs) [] [] [] = topLevelLoop cs stack piece done := by
  induction h with
  | nil h => exact exists_topLevelLoop_of_nested h [] []
  | @cons stack s t bracket _ ht ih =>
    obtain ⟨piece, done, hloop⟩ := ih
    refine ⟨t.reverse ++ bracket.opening :: piece, done, fun cs => ?_⟩
    rw [List.append_assoc, List.cons_append, hloop, topLevelLoop_opening,
      topLevelLoop_append ht (by simp)]

theorem topLevelPieces_of_leavesOpen (h : LeavesOpen (bracket :: stack) s) :
    topLevelPieces s = .error (.unclosed bracket) := by
  obtain ⟨piece, done, hloop⟩ := exists_topLevelLoop_of_leavesOpen h
  rw [topLevelPieces, ← List.append_nil s, hloop]
  rfl

theorem topLevelLoop_of_mismatch (h : stack.head? ≠ some bracket) (cs piece : List Char)
    (done : List (List Char)) :
    topLevelLoop (bracket.closing :: cs) stack piece done = .error .unmatched := by
  have hopening : Bracket.ofOpening? bracket.closing = none := by cases bracket <;> rfl
  have hclosing : Bracket.ofClosing? bracket.closing = some bracket := by cases bracket <;> rfl
  rw [topLevelLoop.eq_def]
  simp only [hopening, hclosing]
  cases stack with
  | nil => rfl
  | cons top stack => exact if_neg fun heq => h (congrArg some heq)

theorem topLevelPieces_of_mismatched (h : Mismatched s) : topLevelPieces s = .error .unmatched := by
  obtain ⟨front, bracket, rest, stack, rfl, hfront, hbracket⟩ := h
  obtain ⟨piece, done, hloop⟩ := exists_topLevelLoop_of_leavesOpen hfront
  rw [topLevelPieces, hloop, topLevelLoop_of_mismatch hbracket]

end

/-! ## Nested text in pieces -/

/-- Text in pieces, with commas between them.  The pieces nest and have no commas outside brackets,
so the commas between them are those outside brackets. -/
structure ArePieces (s : List Char) (pieces : List (List Char)) : Prop where
  ne_nil : pieces ≠ []
  eq_intercalate : s = [','].intercalate pieces
  nested : ∀ p ∈ pieces, Nested false p

section
variable {inside : Bool} {s t : List Char} {pieces : List (List Char)} {c : Char}

theorem append_intercalate (front p : List Char) (ps : List (List Char)) :
    front ++ [','].intercalate (p :: ps) = [','].intercalate ((front ++ p) :: ps) := by
  cases ps with
  | nil => rw [List.intercalate_singleton, List.intercalate_singleton]
  | cons q ps => simp only [List.intercalate_cons_cons, List.append_assoc]

/-- Nested text can be cut into pieces. -/
theorem Nested.exists_pieces (h : Nested true s) : ∃ pieces, ArePieces s pieces := by
  generalize hinside : true = inside at h
  induction h with
  | nil => exact ⟨[[]], List.cons_ne_nil _ _, rfl, List.forall_mem_singleton.2 .nil⟩
  | @cons inside c s hopening hclosing _ _ ih =>
    obtain ⟨pieces, hne, rfl, hpieces⟩ := ih hinside
    obtain ⟨p, ps, rfl⟩ := List.exists_cons_of_ne_nil hne
    by_cases hcomma : c = ','
    · subst hcomma
      exact ⟨[] :: p :: ps, List.cons_ne_nil _ _, rfl, List.forall_mem_cons.2 ⟨.nil, hpieces⟩⟩
    · rw [List.forall_mem_cons] at hpieces
      refine ⟨(c :: p) :: ps, List.cons_ne_nil _ _, append_intercalate [c] p ps,
        List.forall_mem_cons.2 ⟨.cons hopening hclosing ?_ hpieces.1, hpieces.2⟩⟩
      exact fun h => absurd h hcomma
  | @bracketed inside bracket inner s hinner _ _ ih =>
    obtain ⟨pieces, hne, rfl, hpieces⟩ := ih hinside
    obtain ⟨p, ps, rfl⟩ := List.exists_cons_of_ne_nil hne
    rw [List.forall_mem_cons] at hpieces
    refine ⟨(bracket.opening :: (inner ++ bracket.closing :: p)) :: ps, List.cons_ne_nil _ _, ?_,
      List.forall_mem_cons.2 ⟨.bracketed bracket hinner hpieces.1, hpieces.2⟩⟩
    have hjoin := append_intercalate (bracket.opening :: (inner ++ [bracket.closing])) p ps
    simpa using hjoin

/-- The pieces of a text are those that the scan finds. -/
theorem ArePieces.topLevelPieces_eq (h : ArePieces s pieces) : topLevelPieces s = .ok pieces := by
  rw [topLevelPieces, h.eq_intercalate, topLevelLoop_intercalate h.ne_nil h.nested]
  rfl

theorem trim_eq_nil_iff_blank : trim s = [] ↔ ∀ c ∈ s, isBlank c = true := by
  refine ⟨fun h c hc => ?_, trim_of_blank⟩
  by_contra hblank
  have hmem := mem_trim_of_mem hc (Bool.eq_false_iff.2 hblank)
  rw [h] at hmem
  cases hmem

/-- Only blank text is a single blank piece. -/
theorem ArePieces.map_trim_eq_iff (h : ArePieces s pieces) :
    pieces.map trim = [[]] ↔ trim s = [] := by
  obtain ⟨hne, rfl, -⟩ := h
  obtain ⟨p, _ | ⟨q, ps⟩, rfl⟩ := List.exists_cons_of_ne_nil hne
  · simp [List.intercalate_singleton]
  · refine ⟨fun heq => by simp at heq, fun heq => ?_⟩
    have hcomma : ',' ∈ [','].intercalate (p :: q :: ps) := by
      simp [List.intercalate_cons_cons]
    exact absurd (trim_eq_nil_iff_blank.1 heq ',' hcomma) (by decide)

/-! ## Nested text without the blanks around it -/

theorem Nested.of_cons (h : Nested inside (c :: s)) (hopening : Bracket.ofOpening? c = none) :
    Nested inside s := by
  cases h with
  | cons _ _ _ h => exact h
  | bracketed bracket =>
    cases bracket <;> cases hopening

theorem Nested.of_concat (h : Nested inside (s ++ [c])) (hclosing : Bracket.ofClosing? c = none) :
    Nested inside s := by
  generalize heq : s ++ [c] = u at h
  induction h generalizing s with
  | nil => simp at heq
  | @cons inside d t hopening hclosing' hcomma ht ih =>
    rcases s with _ | ⟨d', s⟩
    · exact .nil
    · obtain ⟨rfl, htail⟩ := List.cons.inj heq
      exact .cons hopening hclosing' hcomma (ih htail)
  | @bracketed inside bracket inner t hinner ht _ ih =>
    rcases List.eq_nil_or_concat t with rfl | ⟨t, d, rfl⟩
    · -- The text ends with the closing bracket.
      have hsplit : s ++ [c] = (bracket.opening :: inner) ++ [bracket.closing] := heq
      obtain ⟨-, hlast⟩ := List.append_inj' hsplit rfl
      obtain ⟨rfl, -⟩ := List.cons.inj hlast
      cases bracket <;> cases hclosing
    · rw [List.concat_eq_append] at heq ih
      have hsplit : s ++ [c] = (bracket.opening :: (inner ++ bracket.closing :: t)) ++ [d] := by
        rw [heq]
        simp
      obtain ⟨rfl, hlast⟩ := List.append_inj' hsplit rfl
      obtain ⟨rfl, -⟩ := List.cons.inj hlast
      exact .bracketed bracket hinner (ih rfl)

theorem Nested.of_append_blank (h : Nested inside (s ++ t)) (ht : ∀ c ∈ t, isBlank c = true) :
    Nested inside s := by
  induction t using List.reverseRecOn with
  | nil => simpa using h
  | append_singleton t c ih =>
    rw [← List.append_assoc] at h
    refine ih (h.of_concat (isPlain_of_isBlank (ht c (by simp))).2.1) fun d hd => ht d ?_
    exact List.mem_append_left _ hd

/-- **Nested text nests without the blanks around it.** -/
theorem Nested.trim (h : Nested inside s) : Nested inside (trim s) := by
  have hleft : Nested inside (trimLeft s) := by
    induction s with
    | nil => exact h
    | cons c s ih =>
      by_cases hc : isBlank c = true
      · rw [trimLeft, List.dropWhile_cons_of_pos hc]
        exact ih (h.of_cons (isPlain_of_isBlank hc).1)
      · rw [trimLeft, List.dropWhile_cons_of_neg hc]
        exact h
  obtain ⟨t, hsplit, ht⟩ := exists_trimRight_append (trimLeft s)
  rw [hsplit] at hleft
  exact hleft.of_append_blank ht

end

/-! ## Any text -/

theorem splitOperands_of_arePieces {s : List Char} {pieces : List (List Char)}
    (h : ArePieces s pieces) :
    splitOperands s = .ok (if trim s = [] then [] else pieces.map trim) := by
  rw [splitOperands, h.topLevelPieces_eq]
  simp only [h.map_trim_eq_iff]

/-- **Splitting a list of operands is exact.**  It succeeds exactly if the brackets of the text
nest.  The text then falls in one way only into nested pieces with commas between them, and these
are the operands, without the blanks around them; only blank text has none.  If a closing bracket
does not match the innermost open one, the text as a whole is refused, and otherwise the innermost
bracket that is left open. -/
theorem operands_split_exactly (s : List Char) :
    ((∃ operands, splitOperands s = .ok operands) ↔ Nested true s) ∧
    (∀ operands, splitOperands s = .ok operands →
      (∀ o ∈ operands, Nested false o) ∧
      ∃ pieces, ArePieces s pieces ∧ (∀ pieces', ArePieces s pieces' → pieces' = pieces) ∧
        operands = if trim s = [] then [] else pieces.map trim) ∧
    (Mismatched s → splitOperands s = .error (.unparsable (String.ofList s))) ∧
    (¬ Nested true s → ¬ Mismatched s → ∃ bracket stack, LeavesOpen (bracket :: stack) s ∧
      splitOperands s = .error (.unterminated bracket)) := by
  have hmismatched (h : Mismatched s) :
      splitOperands s = .error (.unparsable (String.ofList s)) := by
    rw [splitOperands, topLevelPieces_of_mismatched h]
  have hopen {bracket : Bracket} {stack : List Bracket} (h : LeavesOpen (bracket :: stack) s) :
      splitOperands s = .error (.unterminated bracket) := by
    rw [splitOperands, topLevelPieces_of_leavesOpen h]
  have hnested {operands : List (List Char)} (h : splitOperands s = .ok operands) :
      Nested true s := by
    rcases leavesOpen_or_mismatched s with ⟨_ | ⟨bracket, stack⟩, hs⟩ | hs
    · cases hs with
      | nil hs => exact hs
    · rw [hopen hs] at h
      cases h
    · rw [hmismatched hs] at h
      cases h
  refine ⟨⟨?_, fun h => ?_⟩, fun operands h => ?_, hmismatched, fun hnot hmatched => ?_⟩
  · rintro ⟨operands, h⟩
    exact hnested h
  · obtain ⟨pieces, hpieces⟩ := h.exists_pieces
    exact ⟨_, splitOperands_of_arePieces hpieces⟩
  · obtain ⟨pieces, hpieces⟩ := (hnested h).exists_pieces
    obtain rfl := Except.ok.inj ((splitOperands_of_arePieces hpieces).symm.trans h)
    refine ⟨fun o ho => ?_, pieces, hpieces, fun pieces' hpieces' => ?_, rfl⟩
    · split at ho
      · cases ho
      · obtain ⟨p, hp, rfl⟩ := List.mem_map.1 ho
        exact (hpieces.nested p hp).trim
    · exact Except.ok.inj (hpieces'.topLevelPieces_eq.symm.trans hpieces.topLevelPieces_eq)
  · rcases leavesOpen_or_mismatched s with ⟨_ | ⟨bracket, stack⟩, hs⟩ | hs
    · cases hs with
      | nil hs => exact absurd hs hnot
    · exact ⟨bracket, stack, hs, hopen hs⟩
    · exact absurd hs hmatched

end FlaglessAsm
