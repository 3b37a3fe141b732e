import FlaglessAsm.Proofs.Layout

/-!
# The labels of a source text, found in two passes

A session finds the labels in two passes: the first binds the labels of data and takes note of the
statement that each code label waits for, the second binds the code labels as it reaches those
statements.  Here both passes are measured against `labelTable`, which says at once what every label
names.

## What is here

* `get?_labelTable_of_declared`, `get?_labelTable_eq_none_iff`: the lookups of `labelTable`.
* `WaitsFor`: a code label waits for a statement.
* `Collected`, `exists_ofStatements_iff`, `collected_of_ofStatements_eq_ok`: the first pass succeeds
  exactly if no label is declared twice and the data words have addresses, and then leaves out the
  code labels only.
* `BoundBelow`, `BoundBelow.bindCode`: in the second pass, the labels that wait for one of the
  first `n` statements are bound as in `labelTable` and the others wait.
-/

set_option autoImplicit false

namespace FlaglessAsm

open Std

/-! ## Changes of a table -/

namespace SymbolTable

section
variable (t : SymbolTable)

theorem get?_bind (a name : String) (binding : Binding) :
    (t.bind a binding).get? name = if a = name then some binding else t.get? name := by
  simp only [get?, bind, TreeMap.getElem?_insert, LawfulEqCmp.compare_eq_iff_eq]

@[simp] theorem get?_declare (a name : String) (line : Nat) :
    (t.declare a line).get? name = t.get? name := rfl

@[simp] theorem get?_addUnplaced (a name : String) (k : Nat) :
    (t.addUnplaced a k).get? name = t.get? name := rfl

theorem isDeclared_declare (a name : String) (line : Nat) :
    (t.declare a line).isDeclared name = (a == name || t.isDeclared name) := by
  simp only [isDeclared, declare, TreeMap.contains_insert, compare_beq_eq_beq]

theorem mem_unplaced_addUnplaced (a name : String) (k n : Nat) :
    name ∈ (t.addUnplaced a k).unplaced.getD n [] ↔
      (k = n ∧ a = name) ∨ name ∈ t.unplaced.getD n [] := by
  simp only [addUnplaced, TreeMap.getD_insert, LawfulEqCmp.compare_eq_iff_eq]
  split
  · next h =>
    subst h
    simp [eq_comm]
  · next h => simp [h]

end
end SymbolTable

/-! ## The table of all labels -/

theorem mem_labelNames_iff {ss : List SourceStatement} {name : String} :
    name ∈ labelNames ss ↔ ∃ front line rest, ss = front ++ ⟨line, .label name⟩ :: rest := by
  constructor
  · intro h
    obtain ⟨⟨line, statement⟩, hs, hname⟩ := List.mem_filterMap.1 h
    obtain ⟨front, rest, rfl⟩ := List.append_of_mem hs
    cases statement with
    | label name' =>
      rw [Statement.declares?, Option.some_inj] at hname
      exact ⟨front, line, rest, by rw [hname]⟩
    | _ => simp [Statement.declares?] at hname
  · rintro ⟨front, line, rest, rfl⟩
    exact List.mem_filterMap.2 ⟨⟨line, .label name⟩, by simp, rfl⟩

section
variable (config : Config) (size : List SourceStatement → Nat)

theorem map_fst_bindingsFrom (front rest : List SourceStatement) :
    (bindingsFrom config size front rest).map Prod.fst = labelNames rest := by
  induction rest generalizing front with
  | nil => rfl
  | cons s rest ih =>
    have hnames : labelNames (s :: rest) = s.statement.declares?.toList ++ labelNames rest := by
      rw [← labelNames_singleton, ← labelNames_append, List.singleton_append]
    rw [bindingsFrom, hnames]
    cases s.statement <;> simp [Statement.declares?, ih]

theorem mem_bindingsFrom (line : SourceLine) (name : String) (rest f front : List SourceStatement) :
    (name, Binding.inFrontOf config (dataValues (front ++ f)).length (size (front ++ f))
        (nextStatement rest)) ∈
      bindingsFrom config size front (f ++ ⟨line, .label name⟩ :: rest) := by
  induction f generalizing front with
  | nil => simp [bindingsFrom]
  | cons s f ih =>
    have h := ih (front ++ [s])
    rw [List.append_assoc, List.singleton_append] at h
    rw [List.cons_append, bindingsFrom]
    split
    · exact List.mem_cons_of_mem _ h
    · exact h

variable {ss : List SourceStatement}

theorem isDeclared_labelTableOf (name : String) :
    (labelTableOf config size ss).isDeclared name = true ↔ name ∈ labelNames ss := by
  have hmap : (ss.filterMap fun s => s.statement.declares?.map (·, s.line.index)).map Prod.fst
      = labelNames ss := by
    simp [labelNames, List.map_filterMap, Function.comp_def]
  rw [labelTableOf, SymbolTable.isDeclared, TreeMap.contains_ofList, hmap, List.contains_iff_mem]

theorem get?_labelTableOf_of_not_mem {name : String} (h : name ∉ labelNames ss) :
    (labelTableOf config size ss).get? name = none := by
  refine TreeMap.getElem?_ofList_of_contains_eq_false ?_
  rw [map_fst_bindingsFrom]
  simpa using h

theorem get?_labelTableOf_of_declared (hnd : (labelNames ss).Nodup)
    {front rest : List SourceStatement} {line : SourceLine} {name : String}
    (h : ss = front ++ ⟨line, .label name⟩ :: rest) :
    (labelTableOf config size ss).get? name
      = some (.inFrontOf config (dataValues front).length (size front) (nextStatement rest)) := by
  refine TreeMap.getElem?_ofList_of_mem compare_self ?_ ?_ (k := name)
  · rw [← map_fst_bindingsFrom config size []] at hnd
    exact (List.pairwise_map.1 hnd).imp fun hne heq => hne (LawfulEqCmp.eq_of_compare heq)
  · rw [h]
    exact mem_bindingsFrom config size line name rest front []

/-- Data labels only depend on where the data starts. -/
theorem sameData_labelTableOf (hnd : (labelNames ss).Nodup) {config' : Config}
    (hstart : config.dataStart = config'.dataStart) (size' : List SourceStatement → Nat) :
    (labelTableOf config size ss).SameData (labelTableOf config' size' ss) := by
  have hget (name : String) :
      (labelTableOf config size ss).data? name = (labelTableOf config' size' ss).data? name ∧
      (labelTableOf config size ss).pointer? name
        = (labelTableOf config' size' ss).pointer? name := by
    by_cases hmem : name ∈ labelNames ss
    · obtain ⟨front, line, rest, h⟩ := mem_labelNames_iff.1 hmem
      simp only [SymbolTable.data?, SymbolTable.pointer?,
        get?_labelTableOf_of_declared _ _ hnd h]
      rcases nextStatement rest with _ | (_ | (_ | _) | _) <;> simp [Binding.inFrontOf, hstart]
    · simp only [SymbolTable.data?, SymbolTable.pointer?,
        get?_labelTableOf_of_not_mem _ _ hmem, and_self]
  refine ⟨fun name => (hget name).1, fun name => (hget name).2, fun name => ?_⟩
  rw [Bool.eq_iff_iff, isDeclared_labelTableOf, isDeclared_labelTableOf]

end

section
variable {config : Config} {ss : List SourceStatement}

theorem isDeclared_labelTable (name : String) :
    (labelTable config ss).isDeclared name = true ↔ name ∈ labelNames ss :=
  isDeclared_labelTableOf config _ name

theorem get?_labelTable_of_not_mem {name : String} (h : name ∉ labelNames ss) :
    (labelTable config ss).get? name = none :=
  get?_labelTableOf_of_not_mem config _ h

/-- **What a label names**, with the words counted by the expansions of the same table. -/
theorem get?_labelTable_of_declared (hnd : (labelNames ss).Nodup)
    {front rest : List SourceStatement} {line : SourceLine} {name : String}
    (h : ss = front ++ ⟨line, .label name⟩ :: rest) :
    (labelTable config ss).get? name
      = some (.inFrontOf config (dataValues front).length
          (position config (labelTable config ss) front) (nextStatement rest)) := by
  have hsame : (labelTableOf config (fun _ => 0) ss).SameData (labelTable config ss) :=
    sameData_labelTableOf config _ hnd rfl _
  rw [← position_congr hsame config front]
  exact get?_labelTableOf_of_declared config _ hnd h

theorem get?_labelTable_eq_none_iff (hnd : (labelNames ss).Nodup) {name : String} :
    (labelTable config ss).get? name = none ↔ name ∉ labelNames ss := by
  refine ⟨fun hnone hmem => ?_, get?_labelTable_of_not_mem⟩
  obtain ⟨front, line, rest, h⟩ := mem_labelNames_iff.1 hmem
  rw [get?_labelTable_of_declared hnd h] at hnone
  exact Option.some_ne_none _ hnone

end

/-! ## The first pass -/

/-- Whether labels in front of a statement, or at the end, name an instruction address. -/
def isCodePlace : Option Statement → Bool
  | none => true
  | some s => s.isInstruction

/-- A code label stands in front of statement `k`, with nothing but labels between them. -/
def WaitsFor (ss : List SourceStatement) (name : String) (k : Nat) : Prop :=
  ∃ front line rest, ss = front ++ ⟨line, .label name⟩ :: rest ∧
    isCodePlace (nextStatement rest) = true ∧
    k = front.length + 1 + (rest.takeWhile fun s => s.statement.isLabel).length

/-- Whether a label names an instruction address. -/
def Binding.isCode : Binding → Bool
  | .code .. => true
  | _ => false

theorem isLabel_of_nextStatement {ss : List SourceStatement} {s : Statement}
    (h : nextStatement ss = some s) : s.isLabel = false := by
  obtain ⟨stmt, hfind, rfl⟩ := Option.map_eq_some_iff.1 h
  simpa using List.find?_some hfind

theorem isCode_inFrontOf {config : Config} {values words : Nat} {ss : List SourceStatement} :
    (Binding.inFrontOf config values words (nextStatement ss)).isCode
      = isCodePlace (nextStatement ss) := by
  have hlabel := @isLabel_of_nextStatement ss
  rcases hnext : nextStatement ss with _ | (_ | (_ | _) | _)
  case some.label => simp [hnext, Statement.isLabel] at hlabel
  all_goals rfl

theorem WaitsFor.le_length {ss : List SourceStatement} {name : String} {k : Nat}
    (h : WaitsFor ss name k) : k ≤ ss.length := by
  obtain ⟨front, line, rest, rfl, -, rfl⟩ := h
  have hle :=
    (List.takeWhile_prefix (fun s : SourceStatement => s.statement.isLabel) (l := rest)).length_le
  simp only [List.length_append, List.length_cons]
  omega

namespace SymbolTable

theorem attach_eq (t : SymbolTable) (name : String) (index : Nat) (address : Address)
    (rest : List SourceStatement) :
    t.attach name index address rest =
      match nextStatement rest with
      | some (.word (.symbol target)) => t.bind name (.pointer target)
      | some (.word (.value _)) => t.bind name (.data address)
      | _ => t.addUnplaced name
          (index + (rest.takeWhile fun s => s.statement.isLabel).length) := by
  rw [attach, nextStatement_eq_head?_dropWhile]
  generalize (rest.dropWhile fun s => s.statement.isLabel) = tail
  rcases tail with _ | ⟨⟨_, _ | (_ | _) | _⟩, _⟩ <;> rfl

theorem declared_attach (t : SymbolTable) (name : String) (index : Nat) (address : Address)
    (rest : List SourceStatement) : (t.attach name index address rest).declared = t.declared := by
  rw [attach_eq]
  split <;> rfl

theorem isDeclared_attach (t : SymbolTable) (name a : String) (index : Nat) (address : Address)
    (rest : List SourceStatement) :
    (t.attach name index address rest).isDeclared a = t.isDeclared a := by
  rw [isDeclared, declared_attach, isDeclared]

theorem exists_ofStatementsFrom_iff (t : SymbolTable) (index : Nat) (address : Address)
    (rest : List SourceStatement) :
    (∃ u, ofStatementsFrom t index address rest = .ok u) ↔
      (labelNames rest).Nodup ∧ (∀ name ∈ labelNames rest, t.isDeclared name = false) ∧
        address.toNat + (dataValues rest).length < UInt32.size := by
  fun_induction ofStatementsFrom t index address rest with
  | case1 t index address => simp [labelNames, dataValues, UInt32.toNat_lt_size]
  | case2 t index address line name rest first h =>
    have hdecl : t.isDeclared name = true := by
      rw [isDeclared, TreeMap.contains_eq_isSome_getElem?, h, Option.isSome_some]
    simp [labelNames, Statement.declares?, hdecl]
  | case3 t index address line name rest h ih =>
    have hdecl : t.isDeclared name = false := by
      rw [isDeclared, TreeMap.contains_eq_isSome_getElem?, h, Option.isSome_none]
    have hnames : labelNames (⟨line, .label name⟩ :: rest) = name :: labelNames rest := rfl
    have hvalues : dataValues (⟨line, .label name⟩ :: rest) = dataValues rest := rfl
    rw [ih, hnames, hvalues, List.nodup_cons, List.forall_mem_cons]
    simp only [isDeclared_attach, isDeclared_declare, Bool.or_eq_false_iff, beq_eq_false_iff_ne]
    constructor
    · rintro ⟨hnd, hfresh, hroom⟩
      exact ⟨⟨fun hmem => (hfresh name hmem).1 rfl, hnd⟩,
        ⟨hdecl, fun a ha => (hfresh a ha).2⟩, hroom⟩
    · rintro ⟨⟨hmem, hnd⟩, ⟨-, hfresh⟩, hroom⟩
      exact ⟨hnd, fun a ha => ⟨fun heq => hmem (heq ▸ ha), hfresh a ha⟩, hroom⟩
  | case4 t index address line n rest next h ih =>
    have hvalues : dataValues (⟨line, .word (.value n)⟩ :: rest) = n :: dataValues rest := rfl
    have hnames : labelNames (⟨line, .word (.value n)⟩ :: rest) = labelNames rest := rfl
    rw [ih, hvalues, hnames, Address.next?_eq_some_iff.1 h, List.length_cons]
    simp only [Nat.add_assoc, Nat.add_comm 1]
  | case5 t index address line n rest h =>
    have hvalues : dataValues (⟨line, .word (.value n)⟩ :: rest) = n :: dataValues rest := rfl
    have hfull : ¬ address.toNat + 1 < UInt32.size := by
      intro hlt
      rw [Address.next?, Word.ofNat?, if_pos hlt] at h
      exact Option.some_ne_none _ h
    rw [hvalues, List.length_cons]
    simp only [reduceCtorEq, exists_false, false_iff]
    rintro ⟨-, -, hroom⟩
    omega
  | case6 t index address line name rest ih => exact ih
  | case7 t index address line mnemonic operands rest ih => exact ih

/-- **The first pass succeeds** exactly if no label is declared twice and there is an address behind
every data word. -/
theorem exists_ofStatements_iff (ss : List SourceStatement) (dataStart : Address) :
    (∃ t, ofStatements ss dataStart = .ok t) ↔
      (labelNames ss).Nodup ∧ dataStart.toNat + (dataValues ss).length < UInt32.size := by
  rw [ofStatements, exists_ofStatementsFrom_iff]
  have hempty (name : String) : empty.isDeclared name = false := TreeMap.contains_emptyc
  simp [hempty]

end SymbolTable

/-! ## What the first pass leaves behind -/

section
variable {config : Config} {ss front rest : List SourceStatement} {line : SourceLine}
  {name : String}

theorem not_mem_front_of_nodup (hnd : (labelNames ss).Nodup)
    (h : ss = front ++ ⟨line, .label name⟩ :: rest) : name ∉ labelNames front := by
  rw [h, labelNames_append] at hnd
  exact fun hmem => (List.nodup_append.1 hnd).2.2 name hmem name (List.mem_cons_self ..) rfl

/-- A list that goes on with a declaration of a label does not do so within statements that do not
declare it. -/
theorem eq_nil_of_not_mem {before c tail : List SourceStatement} (hfront : name ∉ labelNames front)
    (hc : front = before ++ c) (htail : ⟨line, .label name⟩ :: rest = c ++ tail) : c = [] := by
  cases c with
  | nil => rfl
  | cons s c =>
    rw [List.cons_append, List.cons.injEq] at htail
    refine absurd (mem_labelNames_iff.2 ⟨before, line, c, ?_⟩) hfront
    rw [hc, htail.1]

/-- A label that is declared once has one place. -/
theorem declaration_unique (hnd : (labelNames ss).Nodup)
    (h : ss = front ++ ⟨line, .label name⟩ :: rest) {front' rest' : List SourceStatement}
    {line' : SourceLine} (h' : ss = front' ++ ⟨line', .label name⟩ :: rest') :
    front = front' ∧ rest = rest' := by
  rcases List.append_eq_append_iff.1 (h.symm.trans h') with ⟨c, hc, hr⟩ | ⟨c, hc, hr⟩
  · obtain rfl := eq_nil_of_not_mem (not_mem_front_of_nodup hnd h') hc hr
    simp_all
  · obtain rfl := eq_nil_of_not_mem (not_mem_front_of_nodup hnd h) hc hr
    simp_all

theorem waitsFor_iff (hnd : (labelNames ss).Nodup) (h : ss = front ++ ⟨line, .label name⟩ :: rest)
    (k : Nat) :
    WaitsFor ss name k ↔ isCodePlace (nextStatement rest) = true ∧
      k = front.length + 1 + (rest.takeWhile fun s => s.statement.isLabel).length := by
  refine ⟨fun ⟨front', line', rest', h', hk⟩ => ?_, fun hk => ⟨front, line, rest, h, hk⟩⟩
  obtain ⟨rfl, rfl⟩ := declaration_unique hnd h h'
  exact hk

end

/-- The table of the first pass behind `front`: its labels are declared, those of data are bound and
code labels wait. -/
structure Collected (config : Config) (ss front : List SourceStatement) (t : SymbolTable) :
    Prop where
  isDeclared : ∀ name, t.isDeclared name = true ↔ name ∈ labelNames front
  get? : ∀ name, t.get? name =
    if name ∈ labelNames front then ((labelTable config ss).get? name).filter (!·.isCode) else none
  unplaced : ∀ k name, name ∈ t.unplaced.getD k [] ↔ name ∈ labelNames front ∧ WaitsFor ss name k
  keys : ∀ k ∈ t.unplaced, k ≤ ss.length

section
variable {config : Config} {ss : List SourceStatement}

theorem collected_empty : Collected config ss [] .empty where
  isDeclared name := by simp [SymbolTable.isDeclared, SymbolTable.empty, labelNames]
  get? name := by simp [SymbolTable.get?, SymbolTable.empty, labelNames]
  unplaced k name := by simp [SymbolTable.empty, labelNames]
  keys k hk := by simp [SymbolTable.empty] at hk

theorem Collected.of_declares?_eq_none {front : List SourceStatement} {t : SymbolTable}
    (h : Collected config ss front t) {s : SourceStatement} (hs : s.statement.declares? = none) :
    Collected config ss (front ++ [s]) t := by
  have hnames : labelNames (front ++ [s]) = labelNames front := by
    rw [labelNames_append, labelNames_singleton, hs, Option.toList_none, List.append_nil]
  exact ⟨by simpa only [hnames] using h.isDeclared, by simpa only [hnames] using h.get?,
    by simpa only [hnames] using h.unplaced, h.keys⟩

theorem mem_labelNames_append_label {front : List SourceStatement} {line : SourceLine}
    {name a : String} :
    a ∈ labelNames (front ++ [⟨line, .label name⟩]) ↔ name = a ∨ a ∈ labelNames front := by
  rw [labelNames_append, labelNames_singleton]
  simp [Statement.declares?, or_comm, eq_comm]

/-- A data label, or a pointer label, in the first pass. -/
theorem Collected.bind {front : List SourceStatement} {line : SourceLine} {name : String}
    {t : SymbolTable} (h : Collected config ss front t) (hfront : name ∉ labelNames front)
    {binding : Binding} (hget : (labelTable config ss).get? name = some binding)
    (hdata : binding.isCode = false) (hwaits : ∀ k, ¬ WaitsFor ss name k) :
    Collected config ss (front ++ [⟨line, .label name⟩])
      ((t.declare name line.index).bind name binding) where
  isDeclared a := by
    rw [mem_labelNames_append_label, ← h.isDeclared a]
    change (t.declare name line.index).isDeclared a = true ↔ _
    simp [SymbolTable.isDeclared_declare]
  get? a := by
    rw [SymbolTable.get?_bind, SymbolTable.get?_declare, h.get?]
    simp only [mem_labelNames_append_label]
    by_cases ha : name = a
    · subst ha
      simp [hget, hdata, Option.filter]
    · simp [ha]
  unplaced k a := by
    rw [mem_labelNames_append_label]
    refine (h.unplaced k a).trans ?_
    by_cases ha : name = a
    · subst ha
      simp [hfront, hwaits]
    · simp [ha]
  keys := h.keys

/-- A code label in the first pass. -/
theorem Collected.addUnplaced {front : List SourceStatement} {line : SourceLine} {name : String}
    {t : SymbolTable} (h : Collected config ss front t) (hfront : name ∉ labelNames front)
    {binding : Binding} (hget : (labelTable config ss).get? name = some binding)
    (hcode : binding.isCode = true) {k : Nat} (hwaits : ∀ n, WaitsFor ss name n ↔ n = k) :
    Collected config ss (front ++ [⟨line, .label name⟩])
      ((t.declare name line.index).addUnplaced name k) where
  isDeclared a := by
    rw [mem_labelNames_append_label, ← h.isDeclared a]
    change (t.declare name line.index).isDeclared a = true ↔ _
    simp [SymbolTable.isDeclared_declare]
  get? a := by
    rw [SymbolTable.get?_addUnplaced, SymbolTable.get?_declare, h.get?]
    simp only [mem_labelNames_append_label]
    by_cases ha : name = a
    · subst ha
      simp [hget, hcode, hfront, Option.filter]
    · simp [ha]
  unplaced n a := by
    rw [mem_labelNames_append_label, SymbolTable.mem_unplaced_addUnplaced]
    refine (or_congr_right (h.unplaced n a)).trans ?_
    by_cases ha : name = a
    · subst ha
      simp [hfront, hwaits, eq_comm]
    · simp [ha]
  keys n hn := by
    rcases TreeMap.mem_insert.1 hn with heq | hmem
    · exact ((hwaits n).2 (LawfulEqCmp.eq_of_compare heq).symm).le_length
    · exact h.keys n hmem

/-- One label of the first pass. -/
theorem Collected.attach (hnd : (labelNames ss).Nodup) {front rest : List SourceStatement}
    {line : SourceLine} {name : String} (hss : ss = front ++ ⟨line, .label name⟩ :: rest)
    {t : SymbolTable} (h : Collected config ss front t) :
    Collected config ss (front ++ [⟨line, .label name⟩])
      ((t.declare name line.index).attach name (front.length + 1)
        (config.dataStart + UInt32.ofNat (dataValues front).length) rest) := by
  have hfront := not_mem_front_of_nodup hnd hss
  have hget : (labelTable config ss).get? name = some _ := get?_labelTable_of_declared hnd hss
  have hwaits := waitsFor_iff hnd hss
  have hnext := @isLabel_of_nextStatement rest
  rw [SymbolTable.attach_eq]
  generalize nextStatement rest = next at hget hwaits hnext
  rcases next with _ | (_ | (_ | target) | _)
  case some.label => simp [Statement.isLabel] at hnext
  case some.word.value =>
    exact h.bind hfront hget rfl fun k hk => Bool.false_ne_true ((hwaits k).1 hk).1
  case some.word.symbol =>
    exact h.bind hfront hget rfl fun k hk => Bool.false_ne_true ((hwaits k).1 hk).1
  all_goals exact h.addUnplaced hfront hget rfl fun k => (hwaits k).trans (and_iff_right rfl)

theorem collected_of_ofStatementsFrom_eq_ok (hnd : (labelNames ss).Nodup)
    {front rest : List SourceStatement} (hss : ss = front ++ rest) {t u : SymbolTable}
    (h : Collected config ss front t) {address : Address}
    (haddress : address = config.dataStart + UInt32.ofNat (dataValues front).length)
    (hu : SymbolTable.ofStatementsFrom t front.length address rest = .ok u) :
    Collected config ss ss u := by
  induction rest generalizing front t address with
  | nil =>
    rw [SymbolTable.ofStatementsFrom, Except.ok.injEq] at hu
    rw [List.append_nil] at hss
    exact hu ▸ hss ▸ h
  | cons s rest ih =>
    have hss' : ss = (front ++ [s]) ++ rest := by rw [hss]; simp
    have hlen : front.length + 1 = (front ++ [s]).length := by simp
    obtain ⟨line, name | (n | target) | ⟨mnemonic, operands⟩⟩ := s
    case label =>
      rw [SymbolTable.ofStatementsFrom] at hu
      split at hu
      · simp at hu
      · rw [haddress] at hu
        refine ih hss' (h.attach hnd hss) ?_ (by rw [← hlen]; exact hu)
        simp [dataValues_singleton, Statement.stores?]
    case word.value =>
      rw [SymbolTable.ofStatementsFrom] at hu
      split at hu
      · next next hnext =>
        refine ih hss' (h.of_declares?_eq_none rfl) ?_ (hlen ▸ hu)
        have hvalues : (dataValues (front ++ [⟨line, .word (.value n)⟩])).length
            = (dataValues front).length + 1 := by
          simp [dataValues_singleton, Statement.stores?]
        rw [(Address.next?_eq_some_iff_eq_add.1 hnext).2, haddress, hvalues, UInt32.ofNat_add,
          UInt32.add_assoc]
      · simp at hu
    all_goals
      rw [SymbolTable.ofStatementsFrom] at hu
      refine ih hss' (h.of_declares?_eq_none rfl) ?_ (hlen ▸ hu)
      simpa [dataValues_singleton, Statement.stores?] using haddress

/-- **What the first pass leaves behind**: every binding but those of the code labels. -/
theorem collected_of_ofStatements_eq_ok {t : SymbolTable}
    (h : SymbolTable.ofStatements ss config.dataStart = .ok t) : Collected config ss ss t := by
  have hnd := ((SymbolTable.exists_ofStatements_iff ss config.dataStart).1 ⟨t, h⟩).1
  refine collected_of_ofStatementsFrom_eq_ok hnd (List.nil_append ss).symm collected_empty ?_ h
  simp [dataValues]

end

/-! ## The second pass -/

namespace SymbolTable

theorem get?_foldl_bind (names : List String) (binding : Binding) (t : SymbolTable) (a : String) :
    (names.foldl (fun t name => t.bind name binding) t).get? a
      = if a ∈ names then some binding else t.get? a := by
  induction names generalizing t with
  | nil => simp
  | cons name names ih =>
    rw [List.foldl_cons, ih, get?_bind]
    by_cases ha : a ∈ names
    · simp [ha]
    · simp [ha, eq_comm]

theorem unplaced_foldl_bind (names : List String) (binding : Binding) (t : SymbolTable) :
    (names.foldl (fun t name => t.bind name binding) t).unplaced = t.unplaced := by
  induction names generalizing t with
  | nil => rfl
  | cons name names ih => rw [List.foldl_cons, ih, bind]

theorem declared_foldl_bind (names : List String) (binding : Binding) (t : SymbolTable) :
    (names.foldl (fun t name => t.bind name binding) t).declared = t.declared := by
  induction names generalizing t with
  | nil => rfl
  | cons name names ih => rw [List.foldl_cons, ih, bind]

section
variable (t : SymbolTable) (n : Nat) (pc : Address) (position : Nat)

theorem get?_bindCode (name : String) :
    (t.bindCode n pc position).get? name
      = if name ∈ t.unplaced.getD n [] then some (.code pc position) else t.get? name :=
  get?_foldl_bind _ _ _ _

theorem unplaced_bindCode : (t.bindCode n pc position).unplaced = t.unplaced.erase n :=
  unplaced_foldl_bind _ _ _

theorem isDeclared_bindCode (name : String) :
    (t.bindCode n pc position).isDeclared name = t.isDeclared name := by
  rw [isDeclared, bindCode, declared_foldl_bind, isDeclared]

end
end SymbolTable

/-- The table of the second pass in front of statement `n`: the labels that wait for an earlier
statement are bound as in `labelTable`, and the others wait. -/
structure BoundBelow (config : Config) (ss : List SourceStatement) (n : Nat) (t : SymbolTable) :
    Prop where
  isDeclared : ∀ name, t.isDeclared name = true ↔ name ∈ labelNames ss
  get?_waiting : ∀ name k, WaitsFor ss name k → n ≤ k → t.get? name = none
  get?_bound : ∀ name, (∀ k, WaitsFor ss name k → k < n) →
    t.get? name = (labelTable config ss).get? name
  unplaced : ∀ k name, name ∈ t.unplaced.getD k [] ↔ n ≤ k ∧ WaitsFor ss name k
  keys : ∀ k ∈ t.unplaced, n ≤ k ∧ k ≤ ss.length

section
variable {config : Config} {ss : List SourceStatement} (hnd : (labelNames ss).Nodup)
include hnd

theorem isCode_of_waitsFor (config : Config) {name : String} {k : Nat} (h : WaitsFor ss name k) :
    ∃ binding, (labelTable config ss).get? name = some binding ∧ binding.isCode = true := by
  obtain ⟨front, line, rest, hss, hcode, -⟩ := h
  exact ⟨_, get?_labelTable_of_declared hnd hss, by rw [isCode_inFrontOf, hcode]⟩

theorem not_isCode_of_not_waitsFor {name : String} (h : ∀ k, ¬ WaitsFor ss name k)
    {binding : Binding} (hget : (labelTable config ss).get? name = some binding) :
    binding.isCode = false := by
  by_cases hmem : name ∈ labelNames ss
  · obtain ⟨front, line, rest, hss⟩ := mem_labelNames_iff.1 hmem
    rw [get?_labelTable_of_declared hnd hss, Option.some_inj] at hget
    rw [← hget, isCode_inFrontOf]
    exact Bool.eq_false_iff.2 fun hcode => h _ ⟨front, line, rest, hss, hcode, rfl⟩
  · rw [get?_labelTable_of_not_mem hmem] at hget
    exact absurd hget (by simp)

theorem Collected.boundBelow {t : SymbolTable} (h : Collected config ss ss t) :
    BoundBelow config ss 0 t where
  isDeclared := h.isDeclared
  get?_waiting name k hk _ := by
    obtain ⟨binding, hget, hcode⟩ := isCode_of_waitsFor hnd config hk
    rw [h.get?, hget]
    simp [Option.filter, hcode]
  get?_bound name hk := by
    have hwaits (k : Nat) : ¬ WaitsFor ss name k := fun hw => absurd (hk k hw) (Nat.not_lt_zero k)
    rw [h.get?]
    cases hget : (labelTable config ss).get? name with
    | none => simp [Option.filter]
    | some binding =>
      have hmem : name ∈ labelNames ss := Decidable.byContradiction fun hmem => by
        rw [get?_labelTable_of_not_mem hmem] at hget
        exact absurd hget (by simp)
      simp [Option.filter, hmem, not_isCode_of_not_waitsFor hnd hwaits hget]
  unplaced k name := by
    rw [h.unplaced]
    refine ⟨fun hk => ⟨Nat.zero_le k, hk.2⟩, fun hk => ⟨?_, hk.2⟩⟩
    obtain ⟨front, line, rest, hss, -⟩ := hk.2
    exact mem_labelNames_iff.2 ⟨front, line, rest, hss⟩
  keys k hk := ⟨Nat.zero_le k, h.keys k hk⟩

theorem waitsFor_unique {name : String} {k n : Nat} (hk : WaitsFor ss name k)
    (hn : WaitsFor ss name n) : k = n := by
  obtain ⟨front, line, rest, hss, -, rfl⟩ := hk
  exact ((waitsFor_iff hnd hss n).1 hn).2.symm

/-- A code label names the address behind the words of all statements in front of the one it waits
for. -/
theorem get?_labelTable_of_waitsFor {name : String} {front rest : List SourceStatement}
    (hss : ss = front ++ rest) (h : WaitsFor ss name front.length) :
    (labelTable config ss).get? name
      = some (.code (config.textStart
            + UInt32.ofNat (position config (labelTable config ss) front))
          (position config (labelTable config ss) front)) := by
  obtain ⟨front', line, rest', hss', hcode, hlen⟩ := h
  have hfront : front = front' ++ ⟨line, .label name⟩ :: rest'.takeWhile (·.statement.isLabel) := by
    have htake := congrArg (List.take front.length) (hss.symm.trans hss')
    rw [List.take_left, hlen, Nat.add_assoc, List.take_length_add_append, Nat.add_comm 1,
      List.take_succ_cons] at htake
    rwa [← List.prefix_iff_eq_take.1 (List.takeWhile_prefix _)] at htake
  have hposition : position config (labelTable config ss) front
      = position config (labelTable config ss) front' := by
    rw [hfront]
    refine position_append_of_isLabel config _ front' fun s hs => ?_
    rcases List.mem_cons.1 hs with rfl | hs
    · rfl
    · exact List.all_eq_true.1 List.all_takeWhile s hs
  rw [get?_labelTable_of_declared hnd hss', hposition]
  have hnext := @isLabel_of_nextStatement rest'
  generalize nextStatement rest' = next at hcode hnext
  rcases next with _ | (_ | (_ | _) | _)
  case some.word.value => simp [isCodePlace, Statement.isInstruction] at hcode
  case some.word.symbol => simp [isCodePlace, Statement.isInstruction] at hcode
  all_goals rfl

/-- **One step of the second pass**: binding the labels that wait for a statement to the place of
its first word. -/
theorem BoundBelow.bindCode {t : SymbolTable} {front rest : List SourceStatement}
    (hss : ss = front ++ rest) (h : BoundBelow config ss front.length t) :
    BoundBelow config ss (front.length + 1)
      (t.bindCode front.length
        (config.textStart + UInt32.ofNat (position config (labelTable config ss) front))
        (position config (labelTable config ss) front)) where
  isDeclared name := by rw [SymbolTable.isDeclared_bindCode, h.isDeclared]
  get?_waiting name k hk hle := by
    have hmem : name ∉ t.unplaced.getD front.length [] := fun hmem => by
      have := waitsFor_unique hnd hk ((h.unplaced _ name).1 hmem).2
      omega
    rw [SymbolTable.get?_bindCode, if_neg hmem]
    exact h.get?_waiting name k hk (by omega)
  get?_bound name hk := by
    rw [SymbolTable.get?_bindCode]
    split
    · next hmem => exact (get?_labelTable_of_waitsFor hnd hss ((h.unplaced _ name).1 hmem).2).symm
    · next hmem =>
      refine h.get?_bound name fun k hw => Nat.lt_of_le_of_ne (Nat.le_of_lt_succ (hk k hw)) ?_
      rintro rfl
      exact hmem ((h.unplaced _ name).2 ⟨Nat.le_refl _, hw⟩)
  unplaced k name := by
    rw [SymbolTable.unplaced_bindCode, TreeMap.getD_erase]
    split
    · next heq =>
      have := LawfulEqCmp.eq_of_compare heq
      simp only [List.not_mem_nil, false_iff]
      omega
    · next hne =>
      have : front.length ≠ k := fun heq => hne (heq ▸ compare_self)
      rw [h.unplaced]
      constructor <;> rintro ⟨hle, hw⟩ <;> exact ⟨by omega, hw⟩
  keys k hk := by
    rw [SymbolTable.unplaced_bindCode, TreeMap.mem_erase] at hk
    have hne : front.length ≠ k := fun heq => hk.1 (heq ▸ compare_self)
    have := h.keys k hk.2
    omega

omit hnd in
/-- A binding of the second pass is final. -/
theorem BoundBelow.get?_labelTable {t : SymbolTable} {n : Nat} (h : BoundBelow config ss n t)
    {name : String} {binding : Binding} (hget : t.get? name = some binding) :
    (labelTable config ss).get? name = some binding := by
  rw [← h.get?_bound name, hget]
  intro k hk
  refine Nat.lt_of_not_le fun hle => ?_
  rw [h.get?_waiting name k hk hle] at hget
  exact absurd hget (by simp)

/-- The second pass changes nothing that an expansion depends on. -/
theorem BoundBelow.sameData {t : SymbolTable} {n : Nat} (h : BoundBelow config ss n t) :
    t.SameData (labelTable config ss) := by
  have hget (name : String) : t.get? name = (labelTable config ss).get? name ∨
      (t.get? name = none ∧
        ∃ pc position, (labelTable config ss).get? name = some (.code pc position)) := by
    by_cases hk : ∃ k, WaitsFor ss name k ∧ n ≤ k
    · obtain ⟨k, hw, hle⟩ := hk
      obtain ⟨binding, hb, hcode⟩ := isCode_of_waitsFor hnd config hw
      cases binding with
      | code pc position => exact .inr ⟨h.get?_waiting name k hw hle, pc, position, hb⟩
      | _ => simp [Binding.isCode] at hcode
    · exact .inl (h.get?_bound name fun k hw => Nat.lt_of_not_le fun hle => hk ⟨k, hw, hle⟩)
  refine ⟨fun name => ?_, fun name => ?_, fun name => ?_⟩
  · rw [SymbolTable.data?, SymbolTable.data?]
    rcases hget name with heq | ⟨hnone, pc, position, hcode⟩
    · rw [heq]
    · rw [hnone, hcode]
  · rw [SymbolTable.pointer?, SymbolTable.pointer?]
    rcases hget name with heq | ⟨hnone, pc, position, hcode⟩
    · rw [heq]
    · rw [hnone, hcode]
  · rw [Bool.eq_iff_iff, h.isDeclared, isDeclared_labelTable]

omit hnd in
/-- **The second pass binds every label** and leaves none waiting. -/
theorem BoundBelow.complete {t : SymbolTable} (h : BoundBelow config ss (ss.length + 1) t) :
    (∀ name, t.get? name = (labelTable config ss).get? name) ∧ t.unplaced.isEmpty = true := by
  refine ⟨fun name => h.get?_bound name fun k hk => Nat.lt_succ_of_le hk.le_length, ?_⟩
  refine TreeMap.isEmpty_iff_forall_not_mem.2 fun k hk => ?_
  have := h.keys k hk
  omega

end

end FlaglessAsm
