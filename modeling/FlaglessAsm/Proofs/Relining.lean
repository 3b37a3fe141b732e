import FlaglessAsm.Proofs.SingleLines

/-!
# The same statements on other lines

An assembly never looks at the line that a statement stands on.  It hands lines on: into the table,
which notes where labels are declared, into deferred branches and into errors.  So if the same
statements stand on other lines, both assemblies take the same steps, and differ only in the lines
that they hand on.

Lines are related by an arbitrary relation, and line numbers by a function, as the table keeps
numbers only.

## What is here

* `SymbolTable.Relined`, `Session.Relined`, `AsmError.Relined`: the same up to lines.
* `Session.Parallel`: steps that take the same course, with one lemma for each way to combine steps
  and for each step of a session.
* `relined_readAll`, `relined_ofStatementsFrom`: reading, and the first pass.
* `relined_assemble`: whole assemblies.
-/

set_option autoImplicit false

namespace FlaglessAsm

/-! ## The same up to lines -/

/-- A cause with the line numbers in it replaced. -/
def Cause.renumbered (σ : Nat → Nat) : Cause → Cause
  | .duplicateLabel label first => .duplicateLabel label (σ first)
  | cause => cause

/-- Tables of the same labels, declared on other lines. -/
structure SymbolTable.Relined (σ : Nat → Nat) (t u : SymbolTable) : Prop where
  bound : u.bound = t.bound
  unplaced : u.unplaced = t.unplaced
  declared : ∀ name : String, u.declared[name]? = t.declared[name]?.map σ

/-- A branch deferred on another line. -/
def DeferredBranch.Relined (L : SourceLine → SourceLine → Prop) (b c : DeferredBranch) : Prop :=
  ∃ line, L b.line line ∧ c = { b with line }

/-- Sessions that have handed on other lines. -/
inductive Session.Relined (σ : Nat → Nat) (L : SourceLine → SourceLine → Prop) (s : Session) :
    Session → Prop
  | intro {symbols : SymbolTable} {deferred : Array DeferredBranch}
      (hsymbols : s.symbols.Relined σ symbols)
      (hdeferred : List.Forall₂ (DeferredBranch.Relined L) s.deferred.toList deferred.toList) :
      Relined σ L s { s with symbols, deferred }

/-- The same error, on another line.  The prologue has no line in a source text, nor has a
configuration. -/
inductive AsmError.Relined (σ : Nat → Nat) (L : SourceLine → SourceLine → Prop) :
    AsmError → AsmError → Prop
  | onLine {line line' : SourceLine} {cause : Cause} (h : L line line') :
      Relined σ L (.onLine line cause) (.onLine line' (cause.renumbered σ))
  | prologue : Relined σ L (.onLine Session.prologueLine (.addressSpace .instruction))
      (.onLine Session.prologueLine (.addressSpace .instruction))
  | invalidConfig (error : ConfigError) : Relined σ L (.invalidConfig error) (.invalidConfig error)

theorem Cause.renumbered_of_isPlain (σ : Nat → Nat) {cause : Cause} (h : cause.isPlain = true) :
    cause.renumbered σ = cause := by
  cases cause with
  | duplicateLabel => cases h
  | _ => rfl

theorem AsmError.Relined.of_renumbered_eq {σ : Nat → Nat} {L : SourceLine → SourceLine → Prop}
    {line line' : SourceLine} (hline : L line line') {cause : Cause}
    (h : cause.renumbered σ = cause) :
    AsmError.Relined σ L (.onLine line cause) (.onLine line' cause) := by
  have herror : AsmError.Relined σ L (.onLine line cause) (.onLine line' (cause.renumbered σ)) :=
    .onLine hline
  rwa [h] at herror

/-! ## Tables -/

namespace SymbolTable.Relined

variable {σ : Nat → Nat} {t u : SymbolTable}

theorem get?_eq (h : t.Relined σ u) (name : String) : u.get? name = t.get? name := by
  rw [get?, get?, h.bound]

theorem isDeclared_eq (h : t.Relined σ u) (name : String) :
    u.isDeclared name = t.isDeclared name := by
  rw [isDeclared, isDeclared, Std.TreeMap.contains_eq_isSome_getElem?,
    Std.TreeMap.contains_eq_isSome_getElem?, h.declared, Option.isSome_map]

theorem sameData (h : t.Relined σ u) : u.SameData t where
  data? name := by rw [data?, data?, h.get?_eq]
  pointer? name := by rw [pointer?, pointer?, h.get?_eq]
  isDeclared name := h.isDeclared_eq name

protected theorem bind (h : t.Relined σ u) (name : String) (binding : Binding) :
    (t.bind name binding).Relined σ (u.bind name binding) where
  bound := by rw [SymbolTable.bind, SymbolTable.bind, h.bound]
  unplaced := h.unplaced
  declared := h.declared

protected theorem addUnplaced (h : t.Relined σ u) (name : String) (k : Nat) :
    (t.addUnplaced name k).Relined σ (u.addUnplaced name k) where
  bound := h.bound
  unplaced := by rw [SymbolTable.addUnplaced, SymbolTable.addUnplaced, h.unplaced]
  declared := h.declared

protected theorem declare (h : t.Relined σ u) (name : String) (line : Nat) :
    (t.declare name line).Relined σ (u.declare name (σ line)) where
  bound := h.bound
  unplaced := h.unplaced
  declared a := by
    rw [SymbolTable.declare, SymbolTable.declare, Std.TreeMap.getElem?_insert,
      Std.TreeMap.getElem?_insert, h.declared]
    split <;> rfl

theorem bindCode (h : t.Relined σ u) (n : Nat) (pc : Address) (position : Nat) :
    (t.bindCode n pc position).Relined σ (u.bindCode n pc position) := by
  have hfold (names : List String) {t u : SymbolTable} (h : t.Relined σ u) :
      (names.foldl (fun t name => t.bind name (.code pc position)) t).Relined σ
        (names.foldl (fun t name => t.bind name (.code pc position)) u) := by
    induction names generalizing t u with
    | nil => exact h
    | cons name names ih => exact ih (h.bind name _)
  rw [SymbolTable.bindCode, SymbolTable.bindCode, h.unplaced]
  exact hfold _ ⟨h.bound, rfl, h.declared⟩

end SymbolTable.Relined

/-! ## Steps in parallel -/

namespace Session

section
variable (σ : Nat → Nat) (L : SourceLine → SourceLine → Prop)

/-- Two outcomes of steps: both succeed with the same result, or both fail with the same error. -/
inductive Outcomes {α : Type} :
    EStateM.Result AsmError Session α → EStateM.Result AsmError Session α → Prop
  | ok {a : α} {u v : Session} (h : u.Relined σ L v) : Outcomes (.ok a u) (.ok a v)
  | error {e f : AsmError} {u v : Session} (h : e.Relined σ L f) :
      Outcomes (.error e u) (.error f v)

/-- Two steps take the same course. -/
def Parallel {α : Type} (x y : Step α) : Prop :=
  ∀ s t, s.Relined σ L t → Outcomes σ L (x s) (y t)

end

section
variable {σ : Nat → Nat} {L : SourceLine → SourceLine → Prop} {α β : Type}

theorem Outcomes.bind {s t : Session} {x y : Step α} {f g : α → Step β}
    (hx : Outcomes σ L (x s) (y t)) (hf : ∀ a, Parallel σ L (f a) (g a)) :
    Outcomes σ L ((x >>= f) s) ((y >>= g) t) := by
  cases hxs : x s with
  | ok a u =>
    rw [bind_of_eq_ok hxs]
    rw [hxs] at hx
    generalize hyt : y t = r at hx
    cases hx with
    | ok huv =>
      rw [bind_of_eq_ok hyt]
      exact hf a _ _ huv
  | error e u =>
    rw [bind_of_eq_error hxs]
    rw [hxs] at hx
    generalize hyt : y t = r at hx
    cases hx with
    | error he =>
      rw [bind_of_eq_error hyt]
      exact .error he

theorem Parallel.bind {x y : Step α} {f g : α → Step β} (hx : Parallel σ L x y)
    (hf : ∀ a, Parallel σ L (f a) (g a)) : Parallel σ L (x >>= f) (y >>= g) :=
  fun s t h => (hx s t h).bind hf

theorem parallel_pure (a : α) : Parallel σ L (pure a : Step α) (pure a) :=
  fun _ _ h => .ok h

theorem parallel_get_bind {f g : Session → Step α}
    (h : ∀ s t, s.Relined σ L t → Parallel σ L (f s) (g t)) :
    Parallel σ L (get >>= f) (get >>= g) :=
  fun s t hst => h s t hst s t hst

theorem parallel_modify {f g : Session → Session}
    (h : ∀ s t, s.Relined σ L t → (f s).Relined σ L (g t)) :
    Parallel σ L (modify f : Step Unit) (modify g) :=
  fun s t hst => .ok (h s t hst)

/-- Lines are not touched by a change of the rest of a session. -/
theorem parallel_modify_rest {f : Session → Session}
    (h : ∀ (s : Session) symbols deferred,
      f { s with symbols, deferred } = { f s with symbols, deferred }) :
    Parallel σ L (modify f : Step Unit) (modify f) := by
  refine parallel_modify fun s _ => ?_
  rintro (@⟨symbols, deferred, hsymbols, hdeferred⟩)
  have hself := h s s.symbols s.deferred
  rw [h s symbols deferred]
  refine ⟨?_, ?_⟩
  · rw [congrArg Session.symbols hself]
    exact hsymbols
  · rw [congrArg Session.deferred hself]
    exact hdeferred

theorem parallel_throw {e f : AsmError} (h : e.Relined σ L f) :
    Parallel σ L (throw e : Step α) (throw f) :=
  fun _ _ _ => .error h

variable {line line' : SourceLine} (hline : L line line')
include hline

theorem parallel_throw_plain {cause : Cause} (h : cause.isPlain = true) :
    Parallel σ L (throw (.onLine line cause) : Step α) (throw (.onLine line' cause)) :=
  parallel_throw (.of_renumbered_eq hline (Cause.renumbered_of_isPlain σ h))

theorem parallel_onLine {x : Except Cause α} (h : ∀ c, x = .error c → c.renumbered σ = c) :
    Parallel σ L (onLine line x) (onLine line' x) := by
  cases x with
  | ok a => exact parallel_pure a
  | error cause => exact parallel_throw (.of_renumbered_eq hline (h cause rfl))

theorem parallel_onLine_encoding (x : Except EncodeError α) :
    Parallel σ L (onLine line (x.mapError .encoding)) (onLine line' (x.mapError .encoding)) := by
  refine parallel_onLine hline fun c hc => ?_
  cases x with
  | ok a => cases hc
  | error e =>
    cases hc
    rfl

/-! ## Writing words -/

theorem parallel_writeWord (word : Word) :
    Parallel σ L (writeWord line word) (writeWord line' word) := by
  refine (parallel_modify_rest fun _ _ _ => rfl).bind fun _ => parallel_get_bind ?_
  rintro s _ ⟨-, -⟩
  dsimp only
  cases s.pc.next? with
  | some pc => exact parallel_modify_rest fun _ _ _ => rfl
  | none => exact parallel_throw_plain hline rfl

theorem parallel_writeNops (n : Nat) : Parallel σ L (writeNops line n) (writeNops line' n) := by
  induction n with
  | zero => exact parallel_pure ()
  | succ n ih => exact (parallel_writeWord hline nopWord).bind fun _ => ih

/-- A branch to a label that is not bound is deferred in both sessions, each time with its line. -/
theorem parallel_branchDisplacement (condition : Condition) (label : String) :
    Parallel σ L (branchDisplacement line condition label)
      (branchDisplacement line' condition label) := by
  refine parallel_get_bind ?_
  rintro s _ ⟨hsymbols, -⟩
  dsimp only
  rw [hsymbols.get?_eq]
  rcases s.symbols.get? label with _ | (_ | _ | _)
  case some.code => 
    refine parallel_get_bind ?_
    rintro t _ ⟨-, -⟩
    exact parallel_pure _
  case none =>
    refine (parallel_modify ?_).bind fun _ => parallel_pure _
    rintro t _ ⟨hsymbols, hdeferred⟩
    refine ⟨hsymbols, ?_⟩
    rw [Array.toList_push, Array.toList_push]
    exact List.rel_append hdeferred (.cons ⟨line', hline, rfl⟩ .nil)
  all_goals exact parallel_throw_plain hline rfl

theorem parallel_locate (i : SymbolicInstruction) :
    Parallel σ L (locate line i) (locate line' i) := by
  cases i with
  | branch condition label =>
    exact (parallel_branchDisplacement hline condition label).bind fun _ => parallel_pure _
  | _ => exact parallel_pure _

theorem parallel_emit (i : SymbolicInstruction) : Parallel σ L (emit line i) (emit line' i) := by
  refine (parallel_locate hline i).bind fun located =>
    (parallel_onLine_encoding hline located.encode).bind fun word =>
      (parallel_writeWord hline word).bind fun _ => parallel_get_bind ?_
  rintro s _ ⟨-, -⟩
  dsimp only
  split
  · exact parallel_writeNops hline _
  · exact parallel_pure ()

theorem parallel_emitAll (is : List SymbolicInstruction) :
    Parallel σ L (emitAll line is) (emitAll line' is) := by
  induction is with
  | nil => exact parallel_pure ()
  | cons i is ih => exact (parallel_emit hline i).bind fun _ => ih

/-! ## Placing statements -/

theorem parallel_trackCompare (operation : Operation) :
    Parallel σ L (trackCompare line operation) (trackCompare line' operation) := by
  rw [trackCompare, trackCompare]
  split
  · exact parallel_modify_rest fun _ _ _ => rfl
  · refine parallel_get_bind ?_
    rintro s _ ⟨-, -⟩
    refine parallel_get_bind ?_
    rintro t _ ⟨-, -⟩
    dsimp only
    split
    · exact parallel_throw_plain hline rfl
    · exact parallel_pure ()
  · exact parallel_modify_rest fun _ _ _ => rfl

theorem parallel_placeData (value : Int) :
    Parallel σ L (placeData line value) (placeData line' value) := by
  refine (parallel_onLine_encoding hline _).bind fun halves =>
    (parallel_modify_rest fun _ _ _ => rfl).bind fun _ => parallel_get_bind ?_
  rintro s _ ⟨-, -⟩
  dsimp only
  cases s.dataAddress.next? with
  | some dataAddress => exact parallel_modify_rest fun _ _ _ => rfl
  | none => exact parallel_throw_plain hline rfl

theorem parallel_place (statement : Statement) :
    Parallel σ L (place ⟨line, statement⟩) (place ⟨line', statement⟩) := by
  rcases statement with name | (v | target) | ⟨mnemonic, operands⟩
  case label => exact parallel_modify_rest fun _ _ _ => rfl
  case word.value =>
    exact (parallel_modify_rest fun _ _ _ => rfl).bind fun _ => parallel_placeData hline v
  case word.symbol =>
    exact (parallel_modify_rest fun _ _ _ => rfl).bind fun _ =>
      parallel_modify_rest fun _ _ _ => rfl
  case instruction =>
    refine (parallel_trackCompare hline _).bind fun _ => parallel_get_bind ?_
    rintro s _ ⟨hsymbols, -⟩
    dsimp only
    rw [expand_congr hsymbols.sameData]
    refine (parallel_onLine hline fun cause h => ?_).bind fun is => parallel_emitAll hline is
    rcases cause_of_expand_eq_error h with hplain | ⟨label, rfl, -⟩
    · exact Cause.renumbered_of_isPlain σ hplain
    · rfl

end

section
variable {σ : Nat → Nat} {L : SourceLine → SourceLine → Prop}

theorem parallel_bindLabels (index : Nat) :
    Parallel σ L (bindLabels index) (bindLabels index) := by
  refine parallel_modify ?_
  rintro s _ ⟨hsymbols, hdeferred⟩
  exact ⟨hsymbols.bindCode index s.pc s.text.size, hdeferred⟩

end
end Session

/-- The same statement on another line. -/
def SourceStatement.Relined (L : SourceLine → SourceLine → Prop) (x y : SourceStatement) : Prop :=
  L x.line y.line ∧ y.statement = x.statement

namespace Session

section
variable {σ : Nat → Nat} {L : SourceLine → SourceLine → Prop}

theorem parallel_placeAll {ss ts : List SourceStatement}
    (h : List.Forall₂ (SourceStatement.Relined L) ss ts) (index : Nat) :
    Parallel σ L (placeAll index ss) (placeAll index ts) := by
  induction h generalizing index with
  | nil => exact parallel_bindLabels index
  | @cons x y ss ts hxy _ ih =>
    obtain ⟨line, statement⟩ := x
    obtain ⟨line', _⟩ := y
    obtain ⟨hline, rfl⟩ := hxy
    exact (parallel_bindLabels index).bind fun _ =>
      (parallel_place hline _).bind fun _ => ih (index + 1)

/-! ## Deferred branches -/

theorem parallel_patch {b c : DeferredBranch} (h : b.Relined L c) :
    Parallel σ L (patch b) (patch c) := by
  obtain ⟨line, hline, rfl⟩ := h
  refine parallel_get_bind ?_
  rintro s _ ⟨hsymbols, -⟩
  dsimp only
  rw [hsymbols.get?_eq]
  cases hget : s.symbols.get? b.label with
  | none => exact parallel_throw (.onLine hline)
  | some binding =>
    cases binding with
    | code =>
      exact (parallel_onLine_encoding hline _).bind fun word =>
        parallel_modify_rest fun _ _ _ => rfl
    | _ => exact parallel_throw_plain hline rfl

theorem parallel_patchAll {bs cs : List DeferredBranch}
    (h : List.Forall₂ (DeferredBranch.Relined L) bs cs) :
    Parallel σ L (patchAll bs) (patchAll cs) := by
  induction h with
  | nil => exact parallel_pure ()
  | cons hbc _ ih => exact (parallel_patch hbc).bind fun _ => ih

theorem parallel_resolve : Parallel σ L resolve resolve := by
  refine parallel_get_bind ?_
  rintro s _ (@⟨symbols, deferred, hsymbols, hdeferred⟩)
  have hsize : s.deferred.size = deferred.size := hdeferred.length_eq
  dsimp only
  rw [hsize]
  refine (parallel_modify ?_).bind fun _ => (parallel_patchAll hdeferred).bind fun _ =>
    parallel_pure _
  rintro t _ ⟨hsymbols, -⟩
  exact ⟨hsymbols, .nil⟩

/-! ## Source lines -/

/-- The prologue writes the same words, and its errors do not depend on the lines of the source
text. -/
theorem outcomes_prologue {s t : Session} (hvalid : s.config.validate = .ok ())
    (h : s.Relined σ L t) :
    Outcomes σ L (emitAll prologueLine (startInstructions s.config) s)
      (emitAll prologueLine (startInstructions t.config) t) := by
  obtain @⟨symbols, deferred, hsymbols, hdeferred⟩ := h
  have hbranch : ∀ i ∈ startInstructions s.config, i.isBranch = false :=
    fun i hi => isBranch_of_mem_startInstructions s.config hi
  -- The line of the prologue need not be related to itself, so the steps are followed with all
  -- lines related; without branches, nothing is deferred on the way.
  have hsteps : Outcomes σ (fun _ _ => True) (emitAll prologueLine (startInstructions s.config) s)
      (emitAll prologueLine (startInstructions s.config) { s with symbols, deferred }) :=
    parallel_emitAll trivial _ _ _
      ⟨hsymbols, hdeferred.imp fun _ _ ⟨line, _, hb⟩ => ⟨line, trivial, hb⟩⟩
  dsimp only
  generalize hs : emitAll prologueLine (startInstructions s.config) s = r at hsteps ⊢
  generalize ht : emitAll prologueLine (startInstructions s.config) { s with symbols, deferred } = q
    at hsteps ⊢
  cases hsteps with
  | ok h =>
    obtain ⟨-, words, rfl, -⟩ := exists_append_of_emitAll_eq_ok hbranch hs
    obtain ⟨-, words', hv, -⟩ := exists_append_of_emitAll_eq_ok hbranch ht
    obtain @⟨symbols', deferred', -, -⟩ := h
    obtain rfl : symbols' = symbols := congrArg Session.symbols hv
    obtain rfl : deferred' = deferred := congrArg Session.deferred hv
    exact .ok ⟨hsymbols, hdeferred⟩
  | error h =>
    obtain ⟨rfl, -⟩ := cause_of_prologue_eq_error hvalid hs
    obtain ⟨rfl, -⟩ := cause_of_prologue_eq_error (s := { s with symbols, deferred }) hvalid ht
    exact .error .prologue

end
end Session

/-! ## Reading and the first pass -/

section
variable {σ : Nat → Nat} {L : SourceLine → SourceLine → Prop}

/-- Two results of computations: both succeed with related values, or both fail with the same
error. -/
inductive Results (σ : Nat → Nat) (L : SourceLine → SourceLine → Prop) {α : Type}
    (R : α → α → Prop) : Except AsmError α → Except AsmError α → Prop
  | ok {a b : α} (h : R a b) : Results σ L R (.ok a) (.ok b)
  | error {e f : AsmError} (h : e.Relined σ L f) : Results σ L R (.error e) (.error f)

/-- Lines that say the same are read alike. -/
theorem relined_readAll {lines lines' : List SourceLine}
    (h : List.Forall₂ (fun line line' => L line line' ∧
      Statement.readText (Text.trim line'.text.toList)
        = Statement.readText (Text.trim line.text.toList)) lines lines') :
    Results σ L (List.Forall₂ (SourceStatement.Relined L)) (SourceStatement.readAll lines)
      (SourceStatement.readAll lines') := by
  induction h with
  | nil => exact .ok .nil
  | @cons line line' lines lines' hline _ ih =>
    obtain ⟨hline, htext⟩ := hline
    rw [readAll_cons, readAll_cons, Statement.read, Statement.read, htext]
    cases hread : Statement.readText (Text.trim line.text.toList) with
    | error cause =>
      have hplain := isPlain_of_readText_eq_error hread
      exact .error (.of_renumbered_eq hline (Cause.renumbered_of_isPlain σ hplain))
    | ok statement =>
      generalize SourceStatement.readAll lines = r at ih
      generalize SourceStatement.readAll lines' = q at ih
      cases ih with
      | ok hrest => exact .ok (.cons ⟨hline, rfl⟩ hrest)
      | error he => exact .error he

theorem map_statement_of_relined {ss ts : List SourceStatement}
    (h : List.Forall₂ (SourceStatement.Relined L) ss ts) :
    ts.map (·.statement) = ss.map (·.statement) := by
  induction h with
  | nil => rfl
  | cons hxy _ ih => rw [List.map_cons, List.map_cons, hxy.2, ih]

/-- What a label is attached to does not depend on lines. -/
theorem SymbolTable.Relined.attach {t u : SymbolTable} (h : t.Relined σ u) (name : String)
    (index : Nat) (address : Address) {ss ts : List SourceStatement}
    (hss : ts.map (·.statement) = ss.map (·.statement)) :
    (t.attach name index address ss).Relined σ (u.attach name index address ts) := by
  have hnext : nextStatement ts = nextStatement ss := by
    have hfind (ss : List SourceStatement) :
        nextStatement ss = (ss.map (·.statement)).find? (!·.isLabel) := by
      rw [nextStatement, List.find?_map]
      rfl
    rw [hfind, hfind, hss]
  have hlabels : (ts.takeWhile fun s => s.statement.isLabel).length
      = (ss.takeWhile fun s => s.statement.isLabel).length := by
    have htake (ss : List SourceStatement) :
        (ss.takeWhile fun s => s.statement.isLabel).length
          = ((ss.map (·.statement)).takeWhile Statement.isLabel).length := by
      rw [List.takeWhile_map, List.length_map]
      rfl
    rw [htake, htake, hss]
  rw [SymbolTable.attach_eq, SymbolTable.attach_eq, hnext, hlabels]
  generalize nextStatement ss = next
  rcases next with _ | (_ | (_ | _) | _)
  case some.word.value | some.word.symbol => exact h.bind name _
  all_goals exact h.addUnplaced name _

/-- **The first pass finds the same labels**, on other lines. -/
theorem relined_ofStatementsFrom (hindex : ∀ line line', L line line' → line'.index = σ line.index)
    {ss ts : List SourceStatement} (h : List.Forall₂ (SourceStatement.Relined L) ss ts)
    {t u : SymbolTable} (htu : t.Relined σ u) (index : Nat) (address : Address) :
    Results σ L (SymbolTable.Relined σ) (SymbolTable.ofStatementsFrom t index address ss)
      (SymbolTable.ofStatementsFrom u index address ts) := by
  induction h generalizing t u index address with
  | nil => exact .ok htu
  | @cons x y ss ts hxy hrest ih =>
    obtain ⟨line, _⟩ := x
    obtain ⟨line', statement⟩ := y
    obtain ⟨hline, rfl⟩ := hxy
    dsimp only at hline ⊢
    rcases statement with name | (v | target) | ⟨mnemonic, operands⟩
    case label =>
      rw [SymbolTable.ofStatementsFrom, SymbolTable.ofStatementsFrom, htu.declared]
      cases t.declared[name]? with
      | some first => exact .error (.onLine hline)
      | none =>
        rw [hindex _ _ hline]
        exact ih ((htu.declare name line.index).attach name _ address
          (map_statement_of_relined hrest)) _ _
    case word.value =>
      rw [SymbolTable.ofStatementsFrom, SymbolTable.ofStatementsFrom]
      cases address.next? with
      | some next => exact ih htu _ _
      | none => exact .error (.onLine hline)
    all_goals exact ih htu _ _

/-! ## Whole assemblies -/

/-- Two programs have the same words, the same labels and the same end of their data. -/
structure Program.SameContents (p q : Program) : Prop where
  words : q.words = p.words
  bound : q.symbols.bound = p.symbols.bound
  dataBoundary : q.dataBoundary = p.dataBoundary

variable (hindex : ∀ line line', L line line' → line'.index = σ line.index) {config : Config}
  {lines lines' : List SourceLine}
  (hread : Results σ L (List.Forall₂ (SourceStatement.Relined L)) (SourceStatement.readAll lines)
    (SourceStatement.readAll lines'))
include hindex hread

theorem outcomes_feed (hvalid : config.validate = .ok ()) :
    Session.Outcomes σ L (Session.feed lines (.fresh config))
      (Session.feed lines' (.fresh config)) := by
  have hempty : SymbolTable.empty.Relined σ .empty :=
    ⟨rfl, rfl, fun _ => by simp [SymbolTable.empty]⟩
  generalize hss : SourceStatement.readAll lines = r at hread
  generalize hts : SourceStatement.readAll lines' = q at hread
  cases hread with
  | error he =>
    rw [Session.feed_of_readAll_eq_error hss, Session.feed_of_readAll_eq_error hts]
    exact .error he
  | @ok ss ts hstatements =>
    have hfirst := relined_ofStatementsFrom hindex hstatements hempty 0 config.dataStart
    generalize ht : SymbolTable.ofStatementsFrom .empty 0 config.dataStart ss = r at hfirst
    generalize hu : SymbolTable.ofStatementsFrom .empty 0 config.dataStart ts = q at hfirst
    cases hfirst with
    | error he =>
      rw [Session.feed_of_ofStatements_eq_error (s := .fresh config) hss ht,
        Session.feed_of_ofStatements_eq_error (s := .fresh config) hts hu]
      exact .error he
    | @ok t u htu =>
      rw [Session.feed_of_readAll_eq_ok (s := .fresh config) hss ht,
        Session.feed_of_readAll_eq_ok (s := .fresh config) hts hu]
      have hfresh : Session.Relined σ L { Session.fresh config with symbols := t }
          { Session.fresh config with symbols := u } := ⟨htu, .nil⟩
      exact (Session.outcomes_prologue hvalid hfresh).bind fun _ =>
        Session.parallel_placeAll hstatements 0

/-- **The same statements on other lines are assembled alike**: to programs with the same contents,
or with the same error. -/
theorem relined_assemble :
    Results σ L Program.SameContents (assemble config lines) (assemble config lines') := by
  cases hvalid : config.validate with
  | error e =>
    rw [assemble_of_validate_eq_error hvalid, assemble_of_validate_eq_error hvalid]
    rw [Config.validate] at hvalid
    split at hvalid <;> cases hvalid
    exact .error (.invalidConfig _)
  | ok =>
    have hbuild : Session.Outcomes σ L (Session.build lines (.fresh config))
        (Session.build lines' (.fresh config)) :=
      (outcomes_feed hindex hread hvalid).bind fun _ =>
        Session.parallel_resolve.bind fun _ => Session.parallel_pure ()
    generalize hu : Session.build lines (.fresh config) = r at hbuild
    generalize hv : Session.build lines' (.fresh config) = q at hbuild
    cases hbuild with
    | ok huv =>
      rw [assemble_of_build_eq_ok hvalid hu, assemble_of_build_eq_ok hvalid hv]
      obtain ⟨hsymbols, -⟩ := huv
      exact .ok ⟨rfl, hsymbols.bound, rfl⟩
    | error he =>
      rw [assemble_of_build_eq_error hvalid hu, assemble_of_build_eq_error hvalid hv]
      exact .error he

end
end FlaglessAsm
