import FlaglessAsm.Proofs.Assembly
import FlaglessAsm.Proofs.CanonicalWords

/-!
# Which errors can be raised where

Most causes of an error can be seen on the line that is blamed: it cannot be read, it has operands
of the wrong form, there is no address left for its words.  Two causes involve the rest of the
source text, a label that is declared twice and one that is declared nowhere; and one cause never
occurs, a word that has not 32 bits.  The causes of the first kind are called plain.

The steps that write words fail plainly on the line they are given.  So do expansions, except for
accesses to a label that is not declared (`cause_of_expand_eq_error`), and the patching of branches,
except for branches to such a label.  Reading always fails plainly, and the first pass finds the
labels that are declared twice.

## What is here

* `Cause.isPlain`, `Session.FailsWith`, `Session.FailsPlainly`: plain causes, and steps that fail
  with them only.
* `Session.failsPlainly_emitAll`, `failsPlainly_trackCompare`, `failsPlainly_placeData`: the steps
  that write words.
* `RefersTo`, `cause_of_expand_eq_error`: expansions.
* `Session.cause_of_failed_place`, `Reached.exists_failed_place`: placing statements.
* `Session.cause_of_failed_resolve`: deferred branches.
* `cause_of_readAll_eq_error`, `SymbolTable.firstPassError_of_ofStatements_eq_error`: reading, and
  the first pass.
* `Stops`, `stops_of_assemble_eq_error`: where a whole assembly stops.
-/

set_option autoImplicit false

namespace FlaglessAsm

/-- Whether a cause can be seen on the line that is blamed for it. -/
def Cause.isPlain : Cause → Bool
  | .encoding (.width _) | .unresolved _ | .duplicateLabel .. => false
  | _ => true

/-- The error of a computation that failed. -/
def error? {ε α : Type} : Except ε α → Option ε
  | .ok _ => none
  | .error e => some e

theorem error?_eq_some_iff {ε α : Type} {x : Except ε α} {e : ε} :
    error? x = some e ↔ x = .error e := by
  cases x <;> simp [error?]

/-! ## Steps -/

namespace Session

/-- The errors of a step have a property. -/
def FailsWith {α : Type} (P : AsmError → Prop) (x : Step α) : Prop :=
  ∀ s e u, x s = .error e u → P e

/-- A step fails with plain causes on a line only. -/
def FailsPlainly {α : Type} (line : SourceLine) (x : Step α) : Prop :=
  FailsWith (fun e => ∃ cause, e = .onLine line cause ∧ cause.isPlain = true) x

section
variable {α β : Type} {P : AsmError → Prop}

theorem FailsWith.bind {x : Step α} {f : α → Step β} (hx : FailsWith P x)
    (hf : ∀ a, FailsWith P (f a)) : FailsWith P (x >>= f) := by
  intro s e u h
  rcases bind_eq_error_iff.1 h with h | ⟨a, t, -, h⟩
  · exact hx s e u h
  · exact hf a t e u h

theorem failsWith_pure (a : α) : FailsWith P (pure a : Step α) := by
  intro s e u h
  simp at h

theorem failsWith_get : FailsWith P (get : Step Session) := by
  intro s e u h
  simp at h

theorem failsWith_modify (f : Session → Session) : FailsWith P (modify f : Step Unit) := by
  intro s e u h
  simp at h

theorem failsWith_throw {e : AsmError} (h : P e) : FailsWith P (throw e : Step α) := by
  intro s e' u h'
  rw [throw_apply, EStateM.Result.error.injEq] at h'
  exact h'.1 ▸ h

theorem failsPlainly_throw {line : SourceLine} {cause : Cause} (h : cause.isPlain = true) :
    FailsPlainly line (throw (.onLine line cause) : Step α) :=
  failsWith_throw ⟨cause, rfl, h⟩

theorem onLine_eq_error_iff {line : SourceLine} {x : Except Cause α} {e : AsmError}
    {s u : Session} :
    onLine line x s = .error e u ↔ ∃ cause, x = .error cause ∧ e = .onLine line cause ∧ u = s := by
  cases x <;> simp [onLine, eq_comm]

theorem lift_eq_error_iff {x : Except AsmError α} {e : AsmError} {s u : Session} :
    lift x s = .error e u ↔ x = .error e ∧ u = s := by
  cases x <;> simp [lift, eq_comm]

theorem failsPlainly_onLine_encoding (line : SourceLine) {x : Except EncodeError α}
    (hx : ∀ bits, x ≠ .error (.width bits)) :
    FailsPlainly line (onLine line (x.mapError .encoding)) := by
  intro s e u h
  obtain ⟨cause, hcause, rfl, -⟩ := onLine_eq_error_iff.1 h
  cases x with
  | ok a => cases hcause
  | error c =>
    cases hcause
    refine ⟨_, rfl, ?_⟩
    cases c with
    | width bits => exact absurd rfl (hx bits)
    | _ => rfl

end

/-! ## Writing words -/

theorem failsPlainly_writeWord (line : SourceLine) (word : Word) :
    FailsPlainly line (writeWord line word) := by
  refine (failsWith_modify _).bind fun _ => failsWith_get.bind fun s => ?_
  cases s.pc.next? with
  | some pc => exact failsWith_modify _
  | none => exact failsPlainly_throw rfl

theorem failsPlainly_writeNops (line : SourceLine) (n : Nat) :
    FailsPlainly line (writeNops line n) := by
  induction n with
  | zero => exact failsWith_pure ()
  | succ n ih => exact (failsPlainly_writeWord line nopWord).bind fun _ => ih

theorem failsPlainly_branchDisplacement (line : SourceLine) (condition : Condition)
    (label : String) : FailsPlainly line (branchDisplacement line condition label) := by
  refine failsWith_get.bind fun s => ?_
  cases s.symbols.get? label with
  | none => exact (failsWith_modify _).bind fun _ => failsWith_pure _
  | some binding =>
    cases binding with
    | code => exact failsWith_get.bind fun _ => failsWith_pure _
    | _ => exact failsPlainly_throw rfl

theorem failsPlainly_locate (line : SourceLine) (i : SymbolicInstruction) :
    FailsPlainly line (locate line i) := by
  cases i with
  | branch condition label =>
    exact (failsPlainly_branchDisplacement line condition label).bind fun _ => failsWith_pure _
  | _ => exact failsWith_pure _

theorem failsPlainly_emit (line : SourceLine) (i : SymbolicInstruction) :
    FailsPlainly line (emit line i) := by
  refine (failsPlainly_locate line i).bind fun located =>
    (failsPlainly_onLine_encoding line located.encode_ne_width).bind fun word =>
      (failsPlainly_writeWord line word).bind fun _ => failsWith_get.bind fun s => ?_
  dsimp only
  split
  · exact failsPlainly_writeNops line _
  · exact failsWith_pure _

theorem failsPlainly_emitAll (line : SourceLine) (is : List SymbolicInstruction) :
    FailsPlainly line (emitAll line is) := by
  induction is with
  | nil => exact failsWith_pure ()
  | cons i is ih => exact (failsPlainly_emit line i).bind fun _ => ih

theorem failsPlainly_trackCompare (line : SourceLine) (operation : Operation) :
    FailsPlainly line (trackCompare line operation) := by
  rw [trackCompare]
  split
  · exact failsWith_modify _
  · refine failsWith_get.bind fun _ => failsWith_get.bind fun _ => ?_
    split
    · exact failsPlainly_throw rfl
    · exact failsWith_pure _
  · exact failsWith_modify _

theorem splitData_ne_width (value : Int) (bits : Nat) : splitData value ≠ .error (.width bits) := by
  rw [splitData]
  split <;> simp

theorem failsPlainly_placeData (line : SourceLine) (value : Int) :
    FailsPlainly line (placeData line value) := by
  refine (failsPlainly_onLine_encoding line (splitData_ne_width value)).bind fun _ =>
    (failsWith_modify _).bind fun _ => failsWith_get.bind fun s => ?_
  split
  · exact failsWith_modify _
  · exact failsPlainly_throw rfl

end Session

/-! ## Expansions -/

/-- A source instruction refers to a label: it branches there, it loads or stores a register there,
or it loads a register through a label that points there. -/
inductive RefersTo (points : String → String → Prop) : Operation → List Operand → String → Prop
  | branch {operation : Operation} {label : String}
      (h : operation.category = .branch ∨ operation.category = .conditionalBranch) :
      RefersTo points operation [.label label] label
  | access {operation : Operation} {value : Register} {label : String}
      (h : operation = .ldr ∨ operation = .str) :
      RefersTo points operation [.register value, .label label] label
  | pointer {value : Register} {pointer label : String} (h : points pointer label) :
      RefersTo points .ldr [.register value, .label pointer] label

/-- A computation fails with plain causes only. -/
def PlainErrors {α : Type} (x : Except Cause α) : Prop :=
  ∀ cause, x = .error cause → cause.isPlain = true

section
variable {α β : Type}

@[simp] theorem plainErrors_ok (a : α) : PlainErrors (.ok a) := by
  simp [PlainErrors]

@[simp] theorem plainErrors_error {cause : Cause} :
    PlainErrors (.error cause : Except Cause α) ↔ cause.isPlain = true := by
  simp [PlainErrors]

@[simp] theorem plainErrors_map {x : Except Cause α} {f : α → β} :
    PlainErrors (x.map f) ↔ PlainErrors x := by
  simp [PlainErrors]

end

@[simp] theorem isPlain_shape (expected : Expectation) : (Cause.shape expected).isPlain = true :=
  rfl

@[simp] theorem plainErrors_immediateSource (value : Int) :
    PlainErrors (immediateSource value) := by
  rw [immediateSource]
  split <;> simp [Cause.isPlain]

@[simp] theorem plainErrors_sourceOf (operand : Operand) : PlainErrors (sourceOf operand) := by
  fun_cases sourceOf <;> simp

theorem plainErrors_expandSum (op opposite : AluOp) (operands : List Operand) :
    PlainErrors (expandSum op opposite operands) := by
  have hsum (rd rn : Register) (source : Operand) :
      PlainErrors (sum op opposite rd rn source) := by
    fun_cases sum <;> simp
  fun_cases expandSum <;> simp [hsum]

theorem plainErrors_expandMove (operands : List Operand) : PlainErrors (expandMove operands) := by
  fun_cases expandMove <;> simp

theorem plainErrors_expandShift (operands : List Operand) :
    PlainErrors (expandShift operands) := by
  fun_cases expandShift <;> simp

theorem plainErrors_expandCompare (operands : List Operand) :
    PlainErrors (expandCompare operands) := by
  fun_cases expandCompare <;> simp

theorem plainErrors_expandPush (operands : List Operand) : PlainErrors (expandPush operands) := by
  fun_cases expandPush <;> simp

theorem plainErrors_expandPop (operands : List Operand) : PlainErrors (expandPop operands) := by
  fun_cases expandPop <;> simp

theorem plainErrors_expandBlock (access : Access) (operands : List Operand) :
    PlainErrors (expandBlock access operands) := by
  fun_cases expandBlock <;> simp

theorem plainErrors_expandBranch (condition : Condition) (operands : List Operand) :
    PlainErrors (expandBranch condition operands) := by
  fun_cases expandBranch <;> simp

section
variable {t : SymbolTable} {cause : Cause}

theorem cause_of_dataAddress_eq_error {label : String} (h : dataAddress t label = .error cause) :
    cause.isPlain = true ∨ cause = .unresolved label ∧ t.isDeclared label = false := by
  rw [dataAddress] at h
  split at h
  · cases h
  · split at h
    · cases h
      exact .inl rfl
    · next hdeclared =>
      cases h
      exact .inr ⟨rfl, Bool.eq_false_iff.2 hdeclared⟩

/-- An access to a label fails plainly, unless the label is not declared, or it points to one that
is not. -/
theorem cause_of_expandLabelTransfer_eq_error {access : Access} {value : Register} {name : String}
    (h : expandLabelTransfer t access value name = .error cause) :
    cause.isPlain = true ∨ ∃ label, cause = .unresolved label ∧ t.isDeclared label = false ∧
      (label = name ∨ access = .load ∧ t.pointer? name = some label) := by
  unfold expandLabelTransfer at h
  split at h
  · next target hpointer =>
    refine (cause_of_dataAddress_eq_error (map_eq_error_iff.1 h)).imp_right ?_
    rintro ⟨hcause, hdeclared⟩
    exact ⟨target, hcause, hdeclared, .inr ⟨rfl, hpointer⟩⟩
  · cases h
    exact .inl rfl
  · refine (cause_of_dataAddress_eq_error (map_eq_error_iff.1 h)).imp_right ?_
    rintro ⟨hcause, hdeclared⟩
    exact ⟨name, hcause, hdeclared, .inl rfl⟩

/-- A transfer fails plainly, unless it is an access to such a label. -/
theorem cause_of_expandTransfer_eq_error {access : Access} {operands : List Operand}
    (h : expandTransfer t access operands = .error cause) :
    cause.isPlain = true ∨ ∃ value name label, operands = [.register value, .label name] ∧
      cause = .unresolved label ∧ t.isDeclared label = false ∧
      (label = name ∨ access = .load ∧ t.pointer? name = some label) := by
  unfold expandTransfer at h
  split at h
  · split at h
    case h_4 =>
      rename_i value _ name
      refine (cause_of_expandLabelTransfer_eq_error h).imp_right ?_
      rintro ⟨label, hlabel⟩
      exact ⟨value, name, label, rfl, hlabel⟩
    all_goals cases h
    exact .inl rfl
  · cases h
    exact .inl rfl

/-- **An expansion fails plainly, unless the instruction refers to a label that is not
declared.** -/
theorem cause_of_expand_eq_error {operation : Operation} {operands : List Operand}
    (h : expand t operation operands = .error cause) :
    cause.isPlain = true ∨ ∃ label, cause = .unresolved label ∧ t.isDeclared label = false ∧
      RefersTo (fun pointer target => t.pointer? pointer = some target) operation operands
        label := by
  -- Only the access to a label asks for a declaration; the rest is a matter of forms and numbers.
  cases operation with
  | ldr =>
    refine (cause_of_expandTransfer_eq_error h).imp_right ?_
    rintro ⟨value, name, label, rfl, hcause, hdeclared, rfl | ⟨-, hpointer⟩⟩
    · exact ⟨label, hcause, hdeclared, .access (.inl rfl)⟩
    · exact ⟨label, hcause, hdeclared, .pointer hpointer⟩
  | str =>
    refine (cause_of_expandTransfer_eq_error h).imp_right ?_
    rintro ⟨value, name, label, rfl, hcause, hdeclared, rfl | ⟨⟨⟩, -⟩⟩
    exact ⟨label, hcause, hdeclared, .access (.inr rfl)⟩
  | add | sub => exact .inl (plainErrors_expandSum _ _ operands cause h)
  | mov => exact .inl (plainErrors_expandMove operands cause h)
  | lsl => exact .inl (plainErrors_expandShift operands cause h)
  | cmp => exact .inl (plainErrors_expandCompare operands cause h)
  | push => exact .inl (plainErrors_expandPush operands cause h)
  | pop => exact .inl (plainErrors_expandPop operands cause h)
  | ldm | stm => exact .inl (plainErrors_expandBlock _ operands cause h)
  | b | bge | ble | blt | bgt => exact .inl (plainErrors_expandBranch _ operands cause h)
  | bx | nop =>
    simp only [expand] at h
    split at h <;> cases h
    exact .inl rfl
  | word =>
    cases h
    exact .inl rfl

end

/-! ## Placing statements -/

section
variable {e : AsmError} {s u : Session}

/-- Placing a statement fails plainly on its line, unless it refers to a label that is not
declared. -/
theorem Session.cause_of_failed_place {x : SourceStatement} (h : place x s = .error e u) :
    ∃ cause, e = .onLine x.line cause ∧ (cause.isPlain = true ∨
      ∃ mnemonic operands label, x.statement = .instruction mnemonic operands ∧
        cause = .unresolved label ∧ s.symbols.isDeclared label = false ∧
        RefersTo (fun pointer target => s.symbols.pointer? pointer = some target)
          mnemonic.operation operands label) := by
  have hplain {P : Cause → Prop} (hx : ∃ cause, e = .onLine x.line cause ∧ cause.isPlain = true) :
      ∃ cause, e = .onLine x.line cause ∧ (cause.isPlain = true ∨ P cause) :=
    hx.imp fun _ hcause => ⟨hcause.1, .inl hcause.2⟩
  obtain ⟨line, name | (v | target) | ⟨mnemonic, operands⟩⟩ := x
  case label => simp [place] at h
  case word.symbol => simp [place, bind, EStateM.bind] at h
  case word.value =>
    exact hplain ((failsWith_modify _).bind (fun _ => failsPlainly_placeData line v) s e u h)
  case instruction =>
    rcases bind_eq_error_iff.1 h with h | ⟨_, v, htrack, h⟩
    · exact hplain (failsPlainly_trackCompare line _ s e u h)
    obtain ⟨-, rfl⟩ := trackCompare_eq_ok_iff.1 htrack
    rcases bind_eq_error_iff.1 h with ⟨⟨⟩⟩ | ⟨_, _, ⟨⟩, h⟩
    rcases bind_eq_error_iff.1 h with h | ⟨is, v, -, h⟩
    · obtain ⟨cause, hexpand, rfl, -⟩ := onLine_eq_error_iff.1 h
      refine ⟨cause, rfl, (cause_of_expand_eq_error hexpand).imp_right ?_⟩
      rintro ⟨label, hlabel⟩
      exact ⟨mnemonic, operands, label, rfl, hlabel⟩
    · exact hplain (failsPlainly_emitAll line is v e u h)

/-- Where placing stops: at a statement that cannot be placed, with those in front of it placed. -/
theorem Reached.exists_failed_place {config : Config} {ss front rest : List SourceStatement}
    (hnd : (labelNames ss).Nodup) (hss : ss = front ++ rest)
    (h : Reached config ss front front.length s)
    (hplace : Session.placeAll front.length rest s = .error e u) :
    ∃ before x after n v, ss = before ++ x :: after ∧ Reached config ss before n v ∧
      Session.place x v = .error e u := by
  induction rest generalizing front s with
  | nil => simp [Session.placeAll, Session.bindLabels] at hplace
  | cons x rest ih =>
    have hv := h.bindLabels hnd hss (u := _) rfl
    rcases bind_eq_error_iff.1 hplace with ⟨⟨⟩⟩ | ⟨_, _, ⟨⟩, hplace⟩
    rcases bind_eq_error_iff.1 hplace with hplace | ⟨_, w, hplace, hrest⟩
    · exact ⟨front, x, rest, _, _, hss, hv, hplace⟩
    · have hlen : front.length + 1 = (front ++ [x]).length := by simp
      have hw := hv.place hnd hplace
      rw [hlen] at hw hrest
      exact ih (by simp [hss]) hw hrest

/-! ## Deferred branches -/

namespace Session

/-- Patching a branch fails plainly, unless its label is not bound. -/
theorem cause_of_failed_patch {b : DeferredBranch} (h : patch b s = .error e u) :
    ∃ cause, e = .onLine b.line cause ∧ (cause.isPlain = true ∨
      cause = .unresolved b.label ∧ s.symbols.get? b.label = none) := by
  rcases bind_eq_error_iff.1 h with ⟨⟨⟩⟩ | ⟨_, _, ⟨⟩, h⟩
  cases hget : s.symbols.get? b.label with
  | none =>
    rw [hget] at h
    obtain ⟨⟩ := h
    exact ⟨_, rfl, .inr ⟨rfl, rfl⟩⟩
  | some binding =>
    rw [hget] at h
    cases binding with
    | code pc position =>
      obtain ⟨cause, he, hcause⟩ :=
        (failsPlainly_onLine_encoding b.line (Instruction.encode_ne_width _)).bind
          (fun _ => failsWith_modify _) s e u h
      exact ⟨cause, he, .inl hcause⟩
    | _ =>
      obtain ⟨⟩ := h
      exact ⟨_, rfl, .inl rfl⟩

/-- Patching branches fails at one of them. -/
theorem cause_of_failed_patchAll {bs : List DeferredBranch} (h : patchAll bs s = .error e u) :
    ∃ b ∈ bs, ∃ cause, e = .onLine b.line cause ∧ (cause.isPlain = true ∨
      cause = .unresolved b.label ∧ s.symbols.get? b.label = none) := by
  induction bs generalizing s with
  | nil => simp [patchAll] at h
  | cons b bs ih =>
    rcases bind_eq_error_iff.1 h with h | ⟨_, v, hpatch, hrest⟩
    · exact ⟨b, List.mem_cons_self .., cause_of_failed_patch h⟩
    · obtain ⟨word, -, rfl⟩ := patch_eq_ok_iff.1 hpatch
      obtain ⟨c, hc, hcause⟩ := ih hrest
      exact ⟨c, List.mem_cons_of_mem _ hc, hcause⟩

theorem cause_of_failed_resolve (h : resolve s = .error e u) :
    ∃ b ∈ s.deferred.toList, ∃ cause, e = .onLine b.line cause ∧ (cause.isPlain = true ∨
      cause = .unresolved b.label ∧ s.symbols.get? b.label = none) := by
  change (patchAll s.deferred.toList >>= fun _ => pure s.deferred.size)
    { s with deferred := #[] } = .error e u at h
  rcases bind_eq_error_iff.1 h with hpatch | ⟨_, v, -, ⟨⟩⟩
  obtain ⟨b, hb, hcause⟩ := cause_of_failed_patchAll hpatch
  exact ⟨b, hb, hcause⟩

end Session
end

/-! ## Reading -/

theorem isPlain_of_readText_eq_error {text : List Char} {cause : Cause}
    (h : Statement.readText text = .error cause) : cause.isPlain = true := by
  rw [Statement.readText] at h
  split at h
  · dsimp only at h
    split at h <;> cases h
    rfl
  · dsimp only at h
    split at h
    · cases h
      rfl
    · rename_i mnemonic _
      generalize Statement.readBody mnemonic _ = body at h
      cases body <;> cases h
      rfl

theorem readAll_cons (line : SourceLine) (lines : List SourceLine) :
    SourceStatement.readAll (line :: lines) =
      match Statement.read line with
      | .error e => .error e
      | .ok statement => (SourceStatement.readAll lines).map (⟨line, statement⟩ :: ·) := by
  rw [SourceStatement.readAll, List.mapM_cons, ← SourceStatement.readAll]
  cases Statement.read line with
  | error e => rfl
  | ok statement => cases SourceStatement.readAll lines <;> rfl

/-- Lines fail to be read with a plain cause on one of them. -/
theorem cause_of_readAll_eq_error {lines : List SourceLine} {e : AsmError}
    (h : SourceStatement.readAll lines = .error e) :
    ∃ line ∈ lines, ∃ cause, e = .onLine line cause ∧ cause.isPlain = true := by
  induction lines with
  | nil => cases h
  | cons line lines ih =>
    rw [readAll_cons, Statement.read] at h
    cases hread : Statement.readText (Text.trim line.text.toList) with
    | error cause =>
      rw [hread] at h
      cases h
      exact ⟨line, List.mem_cons_self .., cause, rfl, isPlain_of_readText_eq_error hread⟩
    | ok statement =>
      rw [hread] at h
      obtain ⟨line', hline', hcause⟩ := ih (map_eq_error_iff.1 h)
      exact ⟨line', List.mem_cons_of_mem _ hline', hcause⟩

/-! ## The first pass -/

namespace SymbolTable

/-- The labels that a table has declared stand on lines of `front`. -/
def DeclaredIn (front : List SourceStatement) (t : SymbolTable) : Prop :=
  ∀ name index, t.declared[name]? = some index →
    ∃ y ∈ front, y.statement = .label name ∧ y.line.index = index

theorem declaredIn_empty : DeclaredIn [] empty := by
  intro name index h
  simp [empty] at h

theorem DeclaredIn.append {front : List SourceStatement} {t : SymbolTable} (h : DeclaredIn front t)
    (rest : List SourceStatement) : DeclaredIn (front ++ rest) t := by
  intro name index hdeclared
  obtain ⟨y, hy, hname⟩ := h name index hdeclared
  exact ⟨y, List.mem_append_left _ hy, hname⟩

theorem DeclaredIn.declare {front : List SourceStatement} {t : SymbolTable} (h : DeclaredIn front t)
    (line : SourceLine) (name : String) :
    DeclaredIn (front ++ [⟨line, .label name⟩]) (t.declare name line.index) := by
  intro a index hdeclared
  change (t.declared.insert name line.index)[a]? = some index at hdeclared
  rw [Std.TreeMap.getElem?_insert] at hdeclared
  split at hdeclared
  · next heq =>
    obtain rfl : name = a := by simpa using heq
    exact ⟨⟨line, .label name⟩, by simp, rfl, Option.some.inj hdeclared⟩
  · exact h.append _ a index hdeclared

/-- How the first pass fails over the statements `ss` behind `front`: there is no address left for a
number, or a label is declared on an earlier line. -/
def FirstPassError (front ss : List SourceStatement) (e : AsmError) : Prop :=
  ∃ before x after, ss = before ++ x :: after ∧
    (e = .onLine x.line (.addressSpace .data) ∨
      ∃ name, x.statement = .label name ∧ ∃ y ∈ front ++ before, y.statement = .label name ∧
        e = .onLine x.line (.duplicateLabel name y.line.index))

theorem FirstPassError.cons {front ss : List SourceStatement} {e : AsmError} {s : SourceStatement}
    (h : FirstPassError (front ++ [s]) ss e) : FirstPassError front (s :: ss) e := by
  obtain ⟨before, x, after, rfl, hx⟩ := h
  rw [List.append_assoc] at hx
  exact ⟨s :: before, x, after, rfl, hx⟩

theorem firstPassError_of_ofStatementsFrom_eq_error {front ss : List SourceStatement}
    {t : SymbolTable} {index : Nat} {address : Address} {e : AsmError} (ht : DeclaredIn front t)
    (h : ofStatementsFrom t index address ss = .error e) : FirstPassError front ss e := by
  fun_induction ofStatementsFrom t index address ss generalizing front with
  | case1 => cases h
  | case2 t index address line name rest first hfirst =>
    obtain rfl := Except.error.inj h
    obtain ⟨y, hy, hname, rfl⟩ := ht name first hfirst
    exact ⟨[], _, rest, rfl, .inr ⟨name, rfl, y, by simpa using hy, hname, rfl⟩⟩
  | case3 t index address line name rest _ ih =>
    refine .cons (ih (fun a i hdeclared => ht.declare line name a i ?_) h)
    rwa [declared_attach] at hdeclared
  | case4 _ _ _ _ _ _ _ _ ih => exact .cons (ih (ht.append _) h)
  | case5 t index address line value rest _ =>
    obtain rfl := Except.error.inj h
    exact ⟨[], _, rest, rfl, .inl rfl⟩
  | case6 _ _ _ _ _ _ ih => exact .cons (ih (ht.append _) h)
  | case7 _ _ _ _ _ _ _ ih => exact .cons (ih (ht.append _) h)

theorem firstPassError_of_ofStatements_eq_error {ss : List SourceStatement} {dataStart : Address}
    {e : AsmError} (h : ofStatements ss dataStart = .error e) : FirstPassError [] ss e :=
  firstPassError_of_ofStatementsFrom_eq_error declaredIn_empty h

end SymbolTable

/-! ## Whole assemblies -/

theorem assemble_eq_error_iff {config : Config} {lines : List SourceLine} {e : AsmError} :
    assemble config lines = .error e ↔ config.validate = .error e ∨
      config.validate = .ok () ∧ ∃ u, Session.build lines (.fresh config) = .error e u := by
  cases hvalidate : config.validate with
  | error => simp [assemble_of_validate_eq_error hvalidate]
  | ok =>
    cases hbuild : Session.build lines (.fresh config) with
    | error => simp [assemble_of_build_eq_error hvalidate hbuild]
    | ok => simp [assemble_of_build_eq_ok hvalidate hbuild]

/-- Where an assembly stops with an error. -/
inductive Stops (config : Config) (lines : List SourceLine) (e : AsmError) : Prop
  | reading (h : SourceStatement.readAll lines = .error e)
  | firstPass {ss : List SourceStatement} (hread : SourceStatement.readAll lines = .ok ss)
      (h : SymbolTable.ofStatements ss config.dataStart = .error e)
  | prologue {symbols : SymbolTable} {u : Session}
      (h : Session.emitAll Session.prologueLine (startInstructions config)
        { Session.fresh config with symbols } = .error e u)
  | placing {ss before after : List SourceStatement} {x : SourceStatement} {n : Nat}
      {v u : Session} (hread : SourceStatement.readAll lines = .ok ss)
      (hnd : (labelNames ss).Nodup) (hss : ss = before ++ x :: after)
      (hreached : Reached config ss before n v) (h : Session.place x v = .error e u)
  | resolving {ss : List SourceStatement} {v u : Session}
      (hread : SourceStatement.readAll lines = .ok ss) (hnd : (labelNames ss).Nodup)
      (hfeed : Session.feed lines (.fresh config) = .ok () v)
      (hreached : Reached config ss ss (ss.length + 1) v) (h : Session.resolve v = .error e u)

theorem stops_of_feed_eq_error {config : Config} {lines : List SourceLine} {e : AsmError}
    {u : Session} (h : Session.feed lines (.fresh config) = .error e u) :
    Stops config lines e := by
  rw [Session.feed_eq] at h
  rcases bind_eq_error_iff.1 h with h | ⟨ss, _, hlift, h⟩
  · exact .reading (Session.lift_eq_error_iff.1 h).1
  obtain ⟨hread, rfl⟩ := Session.lift_eq_ok_iff.1 hlift
  rcases bind_eq_error_iff.1 h with ⟨⟨⟩⟩ | ⟨_, _, ⟨⟩, h⟩
  rcases bind_eq_error_iff.1 h with h | ⟨symbols, _, hlift, h⟩
  · exact .firstPass hread (Session.lift_eq_error_iff.1 h).1
  obtain ⟨hsymbols, rfl⟩ := Session.lift_eq_ok_iff.1 hlift
  rcases bind_eq_error_iff.1 h with ⟨⟨⟩⟩ | ⟨_, _, ⟨⟩, h⟩
  rcases bind_eq_error_iff.1 h with h | ⟨_, v, hemit, h⟩
  · exact .prologue h
  have hnd := ((SymbolTable.exists_ofStatements_iff ss config.dataStart).1 ⟨symbols, hsymbols⟩).1
  obtain ⟨before, x, after, n, w, hss, hreached, hplace⟩ :=
    (reached_of_emitAll_eq_ok hsymbols hemit).exists_failed_place hnd (List.nil_append ss).symm h
  exact .placing hread hnd hss hreached hplace

/-- An assembly under a configuration that is accepted stops in one of these places. -/
theorem stops_of_assemble_eq_error {config : Config} (hvalid : config.validate = .ok ())
    {lines : List SourceLine} {e : AsmError} (h : assemble config lines = .error e) :
    Stops config lines e := by
  rcases assemble_eq_error_iff.1 h with h | ⟨-, u, h⟩
  · rw [hvalid] at h
    cases h
  rcases bind_eq_error_iff.1 h with h | ⟨_, v, hfeed, h⟩
  · exact stops_of_feed_eq_error h
  obtain ⟨ss, hread, ⟨hnd, -⟩, hreached⟩ := reached_of_feed_eq_ok hfeed
  rcases bind_eq_error_iff.1 h with h | ⟨_, _, -, ⟨⟩⟩
  exact .resolving hread hnd hfeed hreached h

end FlaglessAsm
