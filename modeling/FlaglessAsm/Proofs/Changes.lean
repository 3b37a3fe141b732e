import FlaglessAsm.Proofs.Unresolved
import Mathlib.Logic.Relation

/-!
# What a step leaves behind, also when it fails

A session outlives its errors, so it matters what a failing step has done to it.  Feeding source
lines is a chain of elementary changes, wherever it stops: a word is written, labels are bound, a
table is replaced.  A deferred branch comes with its word, and a word with the address behind it.
The only exception is the last address of a memory: the word is written there and the step fails, as
there is no address behind it.

So what is kept by the elementary changes is kept by every step, and no proof has to follow the
steps again.  Resolving is described as a whole, since it can stop at any of the deferred branches.

## What is here

* `Session.Change`, `Session.Changes`: elementary changes, and chains of them.
* `Session.Ends`: how a step may end, with one lemma for each step up to `Session.ends_feed`.
* `Session.exists_of_patchAll_eq_error`, `Session.resolve_cases`: where patching stops, and what
  resolving does.
-/

set_option autoImplicit false

namespace FlaglessAsm

/-- Whether a step failed because no address was left. -/
def AsmError.isAddressSpace : AsmError → Bool
  | .onLine _ (.addressSpace _) => true
  | _ => false

/-- One address is just behind the other. -/
def Address.Next (a b : Address) : Prop :=
  a.next? = some b

/-- The first pass binds no code labels. -/
theorem code?_eq_none_of_ofStatements_eq_ok {ss : List SourceStatement} {dataStart : Address}
    {t : SymbolTable} (h : SymbolTable.ofStatements ss dataStart = .ok t) (name : String) :
    t.code? name = none := by
  have hcollected := @collected_of_ofStatements_eq_ok { dataStart } ss t h
  rw [SymbolTable.code?, hcollected.get?]
  split
  · next pc position hget =>
    split at hget
    · simpa [Binding.isCode] using (Option.filter_eq_some_iff.1 hget).2
    · simp at hget
  · rfl

namespace Session

/-! ## Elementary changes -/

/-- An elementary change of a session.  The address behind a word that is written is related to the
address of the word by `next`. -/
inductive Change (next : Address → Address → Prop) (s : Session) : Session → Prop
  | note (afterCompare : Bool) (dataBoundary : Option String) :
      Change next s { s with afterCompare, dataBoundary }
  | collect (symbols : SymbolTable) (h : ∀ name, symbols.code? name = none) :
      Change next s { s with symbols }
  | bindLabels (statement : Nat) :
      Change next s { s with symbols := s.symbols.bindCode statement s.pc s.text.size }
  | datum (high low : Word) (dataAddress : Address) (h : next s.dataAddress dataAddress) :
      Change next s { s with data := s.data.push ⟨s.dataAddress, high, low⟩, dataAddress }
  | word (word : Word) (pc : Address) (h : next s.pc pc) :
      Change next s { s with text := s.text.push ⟨s.pc, word⟩, pc }
  | branch (line : SourceLine) (condition : Condition) (label : String) (word : Word)
      (hword : (Instruction.branch condition 0).encode = .ok word) (pc : Address)
      (h : next s.pc pc) :
      Change next s
        { s.defer line condition label with text := s.text.push ⟨s.pc, word⟩, pc }

theorem Change.mono {next next' : Address → Address → Prop} (hnext : ∀ a b, next a b → next' a b)
    {s u : Session} (h : s.Change next u) : s.Change next' u := by
  cases h with
  | note afterCompare dataBoundary => exact .note afterCompare dataBoundary
  | collect symbols h => exact .collect symbols h
  | bindLabels statement => exact .bindLabels statement
  | datum high low dataAddress h => exact .datum high low dataAddress (hnext _ _ h)
  | word word pc h => exact .word word pc (hnext _ _ h)
  | branch line condition label word hword pc h =>
    exact .branch line condition label word hword pc (hnext _ _ h)

/-- A chain of changes, in which every address is just behind the one before it. -/
def Changes (s u : Session) : Prop :=
  Relation.ReflTransGen (Change Address.Next) s u

/-- How a step may end in a session that started as `s`.  If no address is left, the last change
leaves the address where it is. -/
def Ends {α : Type} (s : Session) : EStateM.Result AsmError Session α → Prop
  | .ok _ u => s.Changes u
  | .error e u => s.Changes u ∨
      e.isAddressSpace = true ∧ ∃ v, s.Changes v ∧ v.Change (fun a b => b = a) u

/-! ## Steps in a row -/

section
variable {α β : Type} {s u : Session}

theorem Changes.trans_ends {r : EStateM.Result AsmError Session α} (h : s.Changes u)
    (hr : u.Ends r) : s.Ends r := by
  cases r with
  | ok a v => exact Relation.ReflTransGen.trans h hr
  | error e v =>
    rcases hr with hr | ⟨he, w, hw, hv⟩
    · exact .inl (Relation.ReflTransGen.trans h hr)
    · exact .inr ⟨he, w, Relation.ReflTransGen.trans h hw, hv⟩

theorem bind_of_eq_ok {x : Step α} {f : α → Step β} {a : α} (h : x s = .ok a u) :
    (x >>= f) s = f a u := by
  change EStateM.bind x f s = _
  rw [EStateM.bind, h]

theorem bind_of_eq_error {x : Step α} {f : α → Step β} {e : AsmError} (h : x s = .error e u) :
    (x >>= f) s = .error e u := by
  change EStateM.bind x f s = _
  rw [EStateM.bind, h]

theorem Ends.bind {x : Step α} {f : α → Step β} (hx : s.Ends (x s))
    (hf : ∀ a u, x s = .ok a u → u.Ends (f a u)) : s.Ends ((x >>= f) s) := by
  cases h : x s with
  | ok a u =>
    rw [bind_of_eq_ok h]
    rw [h] at hx
    exact Changes.trans_ends hx (hf a u h)
  | error e u =>
    rw [bind_of_eq_error h]
    rw [h] at hx
    exact hx

theorem ends_pure (a : α) : s.Ends ((pure a : Step α) s) :=
  .refl

theorem ends_get : s.Ends ((get : Step Session) s) :=
  .refl

theorem ends_throw (e : AsmError) : s.Ends ((throw e : Step α) s) :=
  .inl .refl

theorem ends_modify {f : Session → Session} (h : s.Change Address.Next (f s)) :
    s.Ends ((modify f : Step Unit) s) :=
  .single h

theorem ends_ite {p : Prop} [Decidable p] {x y : Step α} (hx : s.Ends (x s))
    (hy : s.Ends (y s)) : s.Ends ((if p then x else y) s) := by
  by_cases h : p
  · rwa [if_pos h]
  · rwa [if_neg h]

theorem ends_onLine (line : SourceLine) (x : Except Cause α) : s.Ends (onLine line x s) := by
  cases x with
  | ok a => exact ends_pure a
  | error cause => exact ends_throw _

theorem ends_lift (x : Except AsmError α) : s.Ends (lift x s) := by
  cases x with
  | ok a => exact ends_pure a
  | error e => exact ends_throw e

end

/-! ## Words and instructions -/

/-- A word is written in a session `t` that is `s`, but for a branch deferred on the way. -/
theorem ends_writeWord_bind {s t : Session} (line : SourceLine) (word : Word) {rest : Step Unit}
    (hchange : ∀ (next : Address → Address → Prop) (pc : Address), next t.pc pc →
      s.Change next { t with text := t.text.push ⟨t.pc, word⟩, pc })
    (hrest : ∀ u : Session, u.Ends (rest u)) :
    s.Ends ((writeWord line word >>= fun _ => rest) t) := by
  have happly := writeWord_apply line word t
  cases hnext : t.pc.next? with
  | some pc =>
    rw [hnext] at happly
    rw [bind_of_eq_ok happly]
    exact Changes.trans_ends (.single (hchange Address.Next pc hnext)) (hrest _)
  | none =>
    rw [hnext] at happly
    rw [bind_of_eq_error happly]
    exact .inr ⟨rfl, s, .refl, hchange (fun a b => b = a) t.pc rfl⟩

theorem ends_writeNops (line : SourceLine) (n : Nat) (s : Session) :
    s.Ends (writeNops line n s) := by
  induction n generalizing s with
  | zero => exact ends_pure ()
  | succ n ih => exact ends_writeWord_bind line nopWord (fun _ pc h => .word nopWord pc h) ih

theorem ends_padding (line : SourceLine) (i : SymbolicInstruction) (s : Session) :
    s.Ends ((do
      let config := (← get).config
      if isPadded config i then writeNops line config.hazardPad.toNat : Step Unit) s) :=
  Ends.bind ends_get fun _ u _ => ends_ite (ends_writeNops line _ u) (ends_pure ())

/-- A branch that cannot be located leaves the session alone. -/
theorem eq_of_locate_eq_error {line : SourceLine} {i : SymbolicInstruction} {e : AsmError}
    {s u : Session} (h : locate line i s = .error e u) : u = s := by
  cases i with
  | branch condition label =>
    rw [locate] at h
    rcases bind_eq_error_iff.1 h with h | ⟨_, _, -, h⟩
    · rw [branchDisplacement_apply] at h
      rcases hget : s.symbols.get? label with _ | (_ | _ | _) <;> rw [hget] at h
      case some.data => exact (EStateM.Result.error.inj h).2.symm
      case some.pointer => exact (EStateM.Result.error.inj h).2.symm
      all_goals cases h
    · cases h
  | _ => cases h

theorem ends_emit (line : SourceLine) (i : SymbolicInstruction) (s : Session) :
    s.Ends (emit line i s) := by
  rw [emit]
  cases hlocate : locate line i s with
  | error e u =>
    rw [bind_of_eq_error hlocate, eq_of_locate_eq_error hlocate]
    exact .inl .refl
  | ok located t =>
    rw [bind_of_eq_ok hlocate]
    rcases locate_eq_ok_iff.1 hlocate with ⟨-, rfl⟩ | ⟨condition, label, rfl, -, rfl, rfl⟩
    · refine Ends.bind (ends_onLine line _) fun word u hline => ?_
      obtain ⟨-, rfl⟩ := onLine_eq_ok_iff.1 hline
      exact ends_writeWord_bind line word (fun _ pc h => .word word pc h) (ends_padding line i)
    · -- Deferring alone is no change: the word of the branch, which always exists, belongs to it.
      obtain ⟨word, hword⟩ := encode_branch_zero condition
      have hline : onLine line ((Instruction.branch condition 0).encode.mapError .encoding)
          (s.defer line condition label) = .ok word (s.defer line condition label) :=
        onLine_eq_ok_iff.2 ⟨mapError_eq_ok_iff.2 hword, rfl⟩
      rw [bind_of_eq_ok hline]
      exact ends_writeWord_bind line word
        (fun _ pc h => .branch line condition label word hword pc h) (ends_padding line _)

theorem ends_emitAll (line : SourceLine) (is : List SymbolicInstruction) (s : Session) :
    s.Ends (emitAll line is s) := by
  induction is generalizing s with
  | nil => exact ends_pure ()
  | cons i is ih => exact Ends.bind (ends_emit line i s) fun _ u _ => ih u

/-! ## Statements and source lines -/

theorem ends_trackCompare (line : SourceLine) (operation : Operation) (s : Session) :
    s.Ends (trackCompare line operation s) := by
  rw [trackCompare]
  cases operation.category with
  | compare => exact ends_modify (.note true s.dataBoundary)
  | conditionalBranch =>
    exact Ends.bind ends_get fun _ _ _ => Ends.bind ends_get fun _ _ _ =>
      ends_ite (ends_throw _) (ends_pure _)
  | _ => exact ends_modify (.note false s.dataBoundary)

theorem ends_placeData (line : SourceLine) (value : Int) (s : Session) :
    s.Ends (placeData line value s) := by
  refine Ends.bind (ends_onLine line _) fun halves t hline => ?_
  obtain ⟨-, rfl⟩ := onLine_eq_ok_iff.1 hline
  obtain ⟨high, low⟩ := halves
  -- The word is written in one step and the address moved on in the next: one change, or the last.
  have hwrite (next : Address → Address → Prop) (dataAddress : Address)
      (h : next s.dataAddress dataAddress) := Change.datum high low dataAddress h
  dsimp only
  rw [bind_of_eq_ok (modify_apply _ _), bind_of_eq_ok (get_apply _)]
  dsimp only
  cases hnext : s.dataAddress.next? with
  | some dataAddress => exact Relation.ReflTransGen.single (hwrite Address.Next dataAddress hnext)
  | none => exact .inr ⟨rfl, s, .refl, hwrite (fun a b => b = a) s.dataAddress rfl⟩

theorem ends_place (x : SourceStatement) (s : Session) : s.Ends (place x s) := by
  obtain ⟨line, name | (v | target) | ⟨mnemonic, operands⟩⟩ := x
  case label => exact ends_modify (.note false s.dataBoundary)
  case word.value =>
    exact Ends.bind (ends_modify (.note false s.dataBoundary)) fun _ t _ => ends_placeData line v t
  case word.symbol =>
    exact Ends.bind (ends_modify (.note false s.dataBoundary)) fun _ t _ =>
      ends_modify (.note t.afterCompare _)
  case instruction =>
    exact Ends.bind (ends_trackCompare line mnemonic.operation s) fun _ t _ =>
      Ends.bind ends_get fun v w _ => Ends.bind (ends_onLine line _) fun is u _ =>
        ends_emitAll line is u

theorem ends_placeAll (index : Nat) (ss : List SourceStatement) (s : Session) :
    s.Ends (placeAll index ss s) := by
  induction ss generalizing index s with
  | nil => exact ends_modify (.bindLabels index)
  | cons x ss ih =>
    exact Ends.bind (ends_modify (.bindLabels index)) fun _ t _ =>
      Ends.bind (ends_place x t) fun _ u _ => ih (index + 1) u

/-- **Feeding source lines is a chain of changes**, wherever it stops. -/
theorem ends_feed (lines : List SourceLine) (s : Session) : s.Ends (feed lines s) := by
  rw [feed_eq]
  refine Ends.bind (ends_lift _) fun ss t _ => Ends.bind ends_get fun v w _ =>
    Ends.bind (ends_lift _) fun symbols u hlift => ?_
  obtain ⟨hsymbols, rfl⟩ := lift_eq_ok_iff.1 hlift
  have hcode := code?_eq_none_of_ofStatements_eq_ok hsymbols
  exact Ends.bind (ends_modify (.collect symbols hcode)) fun _ u _ =>
    Ends.bind (ends_emitAll prologueLine _ u) fun _ u _ => ends_placeAll 0 ss u

/-! ## Resolving -/

/-- A branch that cannot be patched has no word, and leaves the session alone. -/
theorem word?_eq_none_of_patch_eq_error {b : DeferredBranch} {e : AsmError} {s u : Session}
    (h : patch b s = .error e u) : b.word? s.symbols = none ∧ u = s := by
  refine ⟨Option.eq_none_iff_forall_ne_some.2 fun word hword => ?_, ?_⟩
  · rw [patch_eq_ok_iff.2 ⟨word, hword, rfl⟩] at h
    cases h
  · rcases bind_eq_error_iff.1 h with ⟨⟨⟩⟩ | ⟨_, _, ⟨⟩, h⟩
    rcases hget : s.symbols.get? b.label with _ | (_ | _ | _) <;> rw [hget] at h
    case some.code =>
      rcases bind_eq_error_iff.1 h with h | ⟨_, _, -, ⟨⟩⟩
      obtain ⟨-, -, -, hu⟩ := onLine_eq_error_iff.1 h
      exact hu
    all_goals exact (EStateM.Result.error.inj h).2.symm

/-- Where patching stops: every branch in front of the one without a word is patched. -/
theorem exists_of_patchAll_eq_error {bs : List DeferredBranch} {e : AsmError} {s u : Session}
    (h : patchAll bs s = .error e u) :
    ∃ as b cs text, bs = as ++ b :: cs ∧ patched? s.symbols as s.text.toList = some text ∧
      b.word? s.symbols = none ∧ u = { s with text := text.toArray } := by
  induction bs generalizing s with
  | nil => cases h
  | cons b bs ih =>
    rw [patchAll] at h
    rcases bind_eq_error_iff.1 h with h | ⟨_, t, hpatch, h⟩
    · obtain ⟨hword, rfl⟩ := word?_eq_none_of_patch_eq_error h
      exact ⟨[], b, bs, u.text.toList, rfl, rfl, hword, rfl⟩
    · obtain ⟨word, hword, rfl⟩ := patch_eq_ok_iff.1 hpatch
      obtain ⟨as, c, cs, text, rfl, htext, hc, rfl⟩ := ih h
      refine ⟨b :: as, c, cs, text, rfl, ?_, hc, rfl⟩
      rw [patched?, hword, Option.bind_some, ← Array.toList_modify]
      exact htext

/-- **What resolving does**, also when it fails: the deferred branches are patched up to the first
one without a word, and none is deferred afterwards. -/
theorem resolve_cases (s : Session) :
    (∃ text, patched? s.symbols s.deferred.toList s.text.toList = some text ∧
      resolve s = .ok s.deferred.size { s with text := text.toArray, deferred := #[] }) ∨
    ∃ e as b bs text, s.deferred.toList = as ++ b :: bs ∧ b.word? s.symbols = none ∧
      patched? s.symbols as s.text.toList = some text ∧
      resolve s = .error e { s with text := text.toArray, deferred := #[] } := by
  cases h : resolve s with
  | ok n u =>
    obtain ⟨text, htext, rfl, rfl⟩ := resolve_eq_ok_iff.1 h
    exact .inl ⟨text, htext, rfl⟩
  | error e u =>
    have hresolve : resolve s = (patchAll s.deferred.toList >>= fun _ => pure s.deferred.size)
        { s with deferred := #[] } := rfl
    rw [hresolve] at h
    rcases bind_eq_error_iff.1 h with h | ⟨_, _, -, ⟨⟩⟩
    obtain ⟨as, b, bs, text, hdeferred, htext, hb, rfl⟩ := exists_of_patchAll_eq_error h
    exact .inr ⟨e, as, b, bs, text, hdeferred, hb, htext, rfl⟩

end Session
end FlaglessAsm
