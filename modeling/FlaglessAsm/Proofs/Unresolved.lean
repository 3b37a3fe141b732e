import FlaglessAsm.Proofs.Failures

/-!
# Labels called unresolved

A branch to a label that is not bound yet is deferred and not refused, so the assembler calls a
label unresolved only after it has seen all of them.  Few steps can call a label unresolved at all:
reading a data label, and patching a deferred branch.

## What is here

* `AsmError.unresolved?`, `Session.CallsNone`: the label that an error calls unresolved, and steps
  whose errors call none so.
* `not_mem_of_assemble_eq_error`: a whole assembly calls a label unresolved only if no line declares
  it.
-/

set_option autoImplicit false

namespace FlaglessAsm

/-- The label that a cause calls unresolved. -/
def Cause.unresolved? : Cause → Option String
  | .unresolved label => some label
  | _ => none

/-- The label that an error calls unresolved. -/
def AsmError.unresolved? : AsmError → Option String
  | .onLine _ cause => cause.unresolved?
  | .invalidConfig _ => none

theorem unresolved?_of_isPlain {cause : Cause} (h : cause.isPlain = true) :
    cause.unresolved? = none := by
  cases cause with
  | unresolved => cases h
  | _ => rfl

/-! ## Steps that call no label unresolved -/

namespace Session

/-- The errors of a step call no label unresolved. -/
def CallsNone {α : Type} (x : Step α) : Prop :=
  ∀ s e u, x s = .error e u → e.unresolved? = none

/-- No plain cause calls a label unresolved. -/
theorem FailsPlainly.callsNone {α : Type} {line : SourceLine} {x : Step α}
    (h : FailsPlainly line x) : CallsNone x := by
  intro s e u he
  obtain ⟨cause, rfl, hcause⟩ := h s e u he
  exact unresolved?_of_isPlain hcause

end Session

/-! ## Whole assemblies -/

theorem unresolved?_of_ofStatements_eq_error {ss : List SourceStatement} {dataStart : Address}
    {e : AsmError} (h : SymbolTable.ofStatements ss dataStart = .error e) :
    e.unresolved? = none := by
  obtain ⟨_, x, _, -, rfl | ⟨name, -, y, -, -, rfl⟩⟩ :=
    SymbolTable.firstPassError_of_ofStatements_eq_error h
  · rfl
  · rfl

/-- **The assembler calls a label unresolved only if no line declares it.** -/
theorem not_mem_of_assemble_eq_error {config : Config} {lines : List SourceLine} {e : AsmError}
    {label : String} (h : assemble config lines = .error e) (he : e.unresolved? = some label) :
    ∃ ss, SourceStatement.readAll lines = .ok ss ∧ label ∉ labelNames ss := by
  rcases assemble_eq_error_iff.1 h with hinvalid | ⟨hvalid, -⟩
  · rw [Config.validate] at hinvalid
    split at hinvalid <;> cases hinvalid
    simp [AsmError.unresolved?] at he
  -- What is placed or patched knows the labels that are declared anywhere in the lines.
  cases stops_of_assemble_eq_error hvalid h with
  | reading h =>
    obtain ⟨line, -, cause, rfl, hplain⟩ := cause_of_readAll_eq_error h
    simp [AsmError.unresolved?, unresolved?_of_isPlain hplain] at he
  | firstPass _ h => simp [unresolved?_of_ofStatements_eq_error h] at he
  | prologue h => simp [(Session.failsPlainly_emitAll _ _).callsNone _ _ _ h] at he
  | placing hread hnd _ hreached h =>
    refine ⟨_, hread, ?_⟩
    obtain ⟨cause, rfl, hplain | ⟨_, _, name, -, rfl, hdeclared, -⟩⟩ :=
      Session.cause_of_failed_place h
    · simp [AsmError.unresolved?, unresolved?_of_isPlain hplain] at he
    · obtain rfl := Option.some.inj he
      rw [← hreached.symbols.isDeclared, hdeclared]
      exact Bool.false_ne_true
  | resolving hread hnd _ hreached h =>
    refine ⟨_, hread, ?_⟩
    obtain ⟨b, -, cause, rfl, hplain | ⟨rfl, hnone⟩⟩ := Session.cause_of_failed_resolve h
    · simp [AsmError.unresolved?, unresolved?_of_isPlain hplain] at he
    · obtain rfl := Option.some.inj he
      have hget := hreached.symbols.complete.1 b.label
      exact (get?_labelTable_eq_none_iff hnd).1 (hget.symm.trans hnone)

end FlaglessAsm
