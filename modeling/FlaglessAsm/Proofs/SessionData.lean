import FlaglessAsm.Proofs.DeferredBranches

/-!
# Data labels of a session that goes on

A session that is fed again counts its data addresses twice: the labels of the new lines are bound
as if nothing had been written yet, while the data words go on behind those that are there.  So the
two counts agree in a session that holds no data yet, and part company afterwards: from then on
every data label names an address that is off by the number of data words already there.

## What is here

* `DeclaresDatum`: a label in front of a number.
* `SymbolTable.DataPlaced`, `SymbolTable.data?_bindCode`: data labels are bound once and for all.
* `Session.Stores`, `Session.stores_placeAll`, `Session.stores_feed`: one data word for each number.
* `DataLabelsLag`: how far data labels are behind the data words they stand for.
* `data_labels_of_calls`: the distance in every session.
-/

set_option autoImplicit false

namespace FlaglessAsm

open Std

/-! ## Labels in front of numbers -/

/-- A label stands in front of a number, with nothing but labels between them, and `k` numbers stand
in front of the label. -/
def DeclaresDatum (ss : List SourceStatement) (name : String) (k : Nat) (v : Int) : Prop :=
  ∃ front line labels line' rest,
    ss = front ++ ⟨line, .label name⟩ :: labels ++ ⟨line', .word (.value v)⟩ :: rest ∧
    (∀ s ∈ labels, s.statement.isLabel = true) ∧ k = (dataValues front).length

section
variable {config : Config} {ss : List SourceStatement} {name : String} {k : Nat} {v : Int}

theorem DeclaresDatum.getElem?_dataValues (h : DeclaresDatum ss name k v) :
    (dataValues ss)[k]? = some v := by
  obtain ⟨front, line, labels, line', rest, rfl, hlabels, rfl⟩ := h
  have hnone : dataValues (⟨line, .label name⟩ :: labels) = [] :=
    dataValues_of_isLabel (List.forall_mem_cons.2 ⟨rfl, hlabels⟩)
  have hvalue : dataValues (⟨line', .word (.value v)⟩ :: rest) = v :: dataValues rest := rfl
  rw [dataValues_append, dataValues_append, hnone, hvalue, List.append_nil]
  simp

/-- A label that is declared once stands in front of one number at most. -/
theorem DeclaresDatum.unique (hnd : (labelNames ss).Nodup) (h : DeclaresDatum ss name k v)
    {k' : Nat} {v' : Int} (h' : DeclaresDatum ss name k' v') : k = k' := by
  obtain ⟨front, line, labels, line', rest, hss, -, rfl⟩ := h
  obtain ⟨front', _, labels', _, rest', hss', -, rfl⟩ := h'
  rw [List.append_assoc, List.cons_append] at hss hss'
  rw [(declaration_unique hnd hss hss').1]

/-- Data labels and the numbers behind them. -/
theorem data?_labelTable_eq_some_iff (hnd : (labelNames ss).Nodup) {a : Address} :
    (labelTable config ss).data? name = some a ↔
      ∃ k v, DeclaresDatum ss name k v ∧ a = config.dataStart + UInt32.ofNat k := by
  rw [SymbolTable.data?_eq_some_iff]
  constructor
  · intro hget
    have hmem : name ∈ labelNames ss := Decidable.byContradiction fun hmem => by
      rw [get?_labelTable_of_not_mem hmem] at hget
      cases hget
    obtain ⟨front, line, rest, hss⟩ := mem_labelNames_iff.1 hmem
    rw [get?_labelTable_of_declared hnd hss, Option.some_inj] at hget
    rcases hnext : nextStatement rest with _ | (_ | (v | _) | _) <;> rw [hnext] at hget
    case some.word.value =>
      obtain ⟨labels, line', rest', rfl, hlabels⟩ := exists_append_of_nextStatement hnext
      refine ⟨_, v, ⟨front, line, labels, line', rest', by rw [hss]; simp, hlabels, rfl⟩, ?_⟩
      exact (Binding.data.inj hget).symm
    all_goals cases hget
  · rintro ⟨k, v, ⟨front, line, labels, line', rest, hss, hlabels, rfl⟩, rfl⟩
    rw [List.append_assoc, List.cons_append] at hss
    rw [get?_labelTable_of_declared hnd hss, nextStatement_append_of_isLabel hlabels]
    rfl

end

/-! ## Data labels are bound once -/

namespace SymbolTable

variable {t : SymbolTable}

/-- No label that waits for its place is a data label. -/
def DataPlaced (t : SymbolTable) : Prop :=
  ∀ k, ∀ name ∈ t.unplaced.getD k [], t.data? name = none

/-- Binding code labels leaves data labels alone. -/
theorem data?_bindCode (h : t.DataPlaced) (n : Nat) (pc : Address) (position : Nat)
    (name : String) : (t.bindCode n pc position).data? name = t.data? name := by
  by_cases hmem : name ∈ t.unplaced.getD n []
  · rw [h n name hmem, data?, get?_bindCode, if_pos hmem]
  · rw [data?, get?_bindCode, if_neg hmem, data?]

theorem DataPlaced.bindCode (h : t.DataPlaced) (n : Nat) (pc : Address) (position : Nat) :
    (t.bindCode n pc position).DataPlaced := by
  intro k name hmem
  rw [unplaced_bindCode, TreeMap.getD_erase] at hmem
  rw [data?_bindCode h]
  split at hmem
  · simp at hmem
  · exact h k name hmem

/-- The first pass binds the data labels, as in a source text of its own. -/
theorem dataPlaced_of_ofStatements_eq_ok {config : Config} {ss : List SourceStatement}
    (h : ofStatements ss config.dataStart = .ok t) :
    t.DataPlaced ∧ ∀ name, t.data? name = (labelTable config ss).data? name := by
  have hnd := ((exists_ofStatements_iff ss config.dataStart).1 ⟨t, h⟩).1
  have hbound := (collected_of_ofStatements_eq_ok h).boundBelow hnd
  refine ⟨fun k name hmem => ?_, (hbound.sameData hnd).data?⟩
  obtain ⟨hk, hwaits⟩ := (hbound.unplaced k name).1 hmem
  rw [data?, hbound.get?_waiting name k hwaits hk]

end SymbolTable

/-! ## Data words -/

namespace Session

variable {s t u : Session}

/-- A session goes on with one more data word for each of a list of numbers. -/
structure Stores (values : List Int) (s u : Session) : Prop where
  config : u.config = s.config
  data : ∃ cells : List DataCell, u.data.toList = s.data.toList ++ cells ∧
    values.map splitData = cells.map fun c => .ok (c.high, c.low)

theorem stores_nil (hconfig : u.config = s.config) (hdata : u.data = s.data) : Stores [] s u :=
  ⟨hconfig, [], by rw [hdata, List.append_nil], rfl⟩

theorem Stores.trans {values values' : List Int} (h : Stores values s t)
    (h' : Stores values' t u) : Stores (values ++ values') s u := by
  obtain ⟨cells, hdata, hcells⟩ := h.data
  obtain ⟨cells', hdata', hcells'⟩ := h'.data
  refine ⟨h'.config.trans h.config, cells ++ cells', ?_, ?_⟩
  · rw [hdata', hdata, List.append_assoc]
  · rw [List.map_append, hcells, hcells', List.map_append]

theorem Stores.size_data {values : List Int} (h : Stores values s u) :
    u.data.size = s.data.size + values.length := by
  obtain ⟨cells, hdata, hcells⟩ := h.data
  have hlen : values.length = cells.length := by simpa using congrArg List.length hcells
  rw [← Array.length_toList, hdata, List.length_append, Array.length_toList, hlen]

/-- The data word of a number stands behind those of the numbers in front of it. -/
theorem Stores.exists_cell {values : List Int} (h : Stores values s u) {k : Nat} {v : Int}
    (hk : values[k]? = some v) :
    ∃ cell, u.data[s.data.size + k]? = some cell ∧ splitData v = .ok (cell.high, cell.low) := by
  obtain ⟨cells, hdata, hcells⟩ := h.data
  have hsplit := congrArg (·[k]?) hcells
  simp only [List.getElem?_map, hk, Option.map_some] at hsplit
  obtain ⟨cell, hcell, hsplit⟩ := Option.map_eq_some_iff.1 hsplit.symm
  refine ⟨cell, ?_, hsplit.symm⟩
  rw [← Array.getElem?_toList, hdata, ← Array.length_toList,
    List.getElem?_append_right (Nat.le_add_right _ _), Nat.add_sub_cancel_left, hcell]

/-- Instructions are written without touching data or labels. -/
theorem sameRest_of_emitAll_eq_ok {line : SourceLine} {is : List SymbolicInstruction}
    (h : emitAll line is s = .ok () u) : s.SameRest u := by
  induction is generalizing s with
  | nil =>
    obtain ⟨⟩ := h
    rfl
  | cons i is ih =>
    obtain ⟨_, v, hemit, hrest⟩ := bind_eq_ok_iff.1 h
    have hv : s.SameRest v := by
      obtain ⟨-, ⟨word, -, rfl⟩ | ⟨condition, label, word, -, -, -, rfl⟩⟩ := emit_eq_ok_iff.1 hemit
      · rfl
      · rfl
    rw [SameRest, ih hrest, hv]

/-- Placing a statement stores its number, if it has one, and binds no label. -/
theorem stores_place {x : SourceStatement} (h : place x s = .ok () u) :
    Stores (dataValues [x]) s u ∧ u.symbols = s.symbols := by
  rw [dataValues_singleton]
  obtain ⟨line, name | (v | target) | ⟨mnemonic, operands⟩⟩ := x
  case word.value =>
    obtain ⟨high, low, hsplit, -, rfl⟩ := place_value_eq_ok_iff.1 h
    refine ⟨⟨rfl, [⟨s.dataAddress, high, low⟩], Array.toList_push, ?_⟩, rfl⟩
    simp [Statement.stores?, hsplit]
  case instruction =>
    obtain ⟨-, is, -, hemit⟩ := place_instruction_eq_ok_iff.1 h
    have hsame := sameRest_of_emitAll_eq_ok hemit
    exact ⟨stores_nil (by rw [hsame]; rfl) (by rw [hsame]; rfl), by rw [hsame]; rfl⟩
  all_goals
    obtain ⟨⟩ := h
    exact ⟨stores_nil rfl rfl, rfl⟩

/-- **Placing statements stores their numbers**, and leaves the data labels alone. -/
theorem stores_placeAll {index : Nat} {rest : List SourceStatement}
    (hplaced : s.symbols.DataPlaced) (h : placeAll index rest s = .ok () u) :
    Stores (dataValues rest) s u ∧ ∀ name, u.symbols.data? name = s.symbols.data? name := by
  have hbound := SymbolTable.data?_bindCode hplaced index s.pc s.text.size
  induction rest generalizing index s with
  | nil =>
    obtain ⟨⟩ := h
    exact ⟨stores_nil rfl rfl, hbound⟩
  | cons x rest ih =>
    rw [placeAll, bind_eq_ok_iff] at h
    obtain ⟨_, _, ⟨⟩, h⟩ := h
    obtain ⟨_, v, hplace, hrest⟩ := bind_eq_ok_iff.1 h
    obtain ⟨hx, hsymbols⟩ := stores_place hplace
    have hv : v.symbols.DataPlaced := by
      rw [hsymbols]
      exact hplaced.bindCode index s.pc s.text.size
    obtain ⟨hstores, hdata⟩ := ih hv hrest (SymbolTable.data?_bindCode hv _ _ _)
    refine ⟨?_, fun name => ?_⟩
    · have hbind : Stores [] s { s with symbols := s.symbols.bindCode index s.pc s.text.size } :=
        stores_nil rfl rfl
      rw [← List.singleton_append, dataValues_append]
      exact hbind.trans (hx.trans hstores)
    · rw [hdata name, hsymbols]
      exact hbound name

/-- **Feeding a session stores the numbers of the lines**, but binds their data labels as if nothing
had been stored before. -/
theorem stores_feed {lines : List SourceLine} (h : feed lines s = .ok () u) :
    ∃ ss, SourceStatement.readAll lines = .ok ss ∧ (labelNames ss).Nodup ∧
      Stores (dataValues ss) s u ∧
      ∀ name, u.symbols.data? name = (labelTable s.config ss).data? name := by
  obtain ⟨ss, symbols, v, hread, hsymbols, hemit, hplace⟩ := feed_eq_ok_iff.1 h
  have hnd := ((SymbolTable.exists_ofStatements_iff ss s.config.dataStart).1 ⟨_, hsymbols⟩).1
  obtain ⟨hplaced, hdata⟩ := SymbolTable.dataPlaced_of_ofStatements_eq_ok hsymbols
  have hv := sameRest_of_emitAll_eq_ok hemit
  have hvsymbols : v.symbols = symbols := by rw [hv]
  obtain ⟨hstores, hlabels⟩ := stores_placeAll (hvsymbols ▸ hplaced) hplace
  refine ⟨ss, hread, hnd, ?_, fun name => ?_⟩
  · exact (stores_nil (by rw [hv]) (by rw [hv])).trans hstores
  · rw [hlabels name, hvsymbols, hdata name]

end Session

/-! ## Whole histories -/

theorem Call.step_eq_ok_of_perform {c : Call} {s : Session} (h : (c.perform s).error? = none) :
    c.step s = .ok () (c.perform s).after := by
  cases hstep : c.step s with
  | ok _ u => rw [perform_of_step_eq_ok hstep]
  | error e u =>
    rw [perform_of_step_eq_error hstep] at h
    cases h

/-- A call leaves the configuration alone, however it ends. -/
theorem Call.config_perform (c : Call) (s : Session) : (c.perform s).after.config = s.config := by
  cases c with
  | feed lines =>
    refine perform_feed_of_change (I := fun t => t.config = s.config) (fun hchange ht => ?_) lines
      rfl
    cases hchange <;> exact ht
  | resolve =>
    obtain ⟨error?, bs, text, -, -, hperform⟩ := exists_perform_resolve s
    rw [hperform]

/-- The calls of a history are made one after the other, with the same configuration. -/
theorem Session.eq_perform_of_mem_history {config : Config} {calls : List Call} {r : Performed}
    (hr : r ∈ (Session.fresh config).history calls) :
    r.call.perform r.before = r ∧ r.before.config = config := by
  have hkept : ∀ r ∈ (Session.fresh config).history calls, r.after.config = config :=
    Session.forall_mem_history (I := fun t => t.config = config) rfl fun c t _ ht =>
      (c.config_perform t).trans ht
  obtain ⟨front, rest, hhistory⟩ := List.append_of_mem hr
  obtain ⟨c, t, later, rfl, -, ht⟩ := Session.exists_of_history_eq_append hhistory
  rw [Call.call_perform, Call.before_perform]
  refine ⟨rfl, ?_⟩
  rcases ht with rfl | ⟨r', hr', rfl⟩
  · rfl
  · exact hkept r' (by simp [hhistory, hr'])

/-- The lines of a call store one data word for each of their numbers, in order.  Each label in
front of a number is a data label, and there are no other data labels.  The address of such a label
is `distance` in front of the address of the data word of its number. -/
def DataLabelsLag (lines : List SourceLine) (distance : Nat) (r : Performed) : Prop :=
  ∃ ss, SourceStatement.readAll lines = .ok ss ∧
    r.after.data.size = r.before.data.size + (dataValues ss).length ∧
    (∀ name k v, DeclaresDatum ss name k v →
      ∃ address, r.after.symbols.get? name = some (.data address)) ∧
    ∀ name address, r.after.symbols.get? name = some (.data address) →
      ∃ k v cell, DeclaresDatum ss name k v ∧
        r.after.data[r.before.data.size + k]? = some cell ∧
        splitData v = .ok (cell.high, cell.low) ∧
        cell.address.toNat = address.toNat + distance

section
variable {config : Config} {r : Performed} {lines : List SourceLine}

/-- **One call**: the labels are behind by the number of data words that were there before. -/
theorem dataLabelsLag_of_feed (hconfig : r.before.config = config)
    (hafter : Consistent config r.after) (hfeed : Session.feed lines r.before = .ok () r.after) :
    DataLabelsLag lines r.before.data.size r := by
  obtain ⟨ss, hread, hnd, hstores, hdata⟩ := Session.stores_feed hfeed
  rw [hconfig] at hdata
  refine ⟨ss, hread, hstores.size_data, fun name k v hk => ?_, fun name address hget => ?_⟩
  · refine ⟨config.dataStart + UInt32.ofNat k, SymbolTable.data?_eq_some_iff.1 ?_⟩
    rw [hdata name]
    exact (data?_labelTable_eq_some_iff hnd).2 ⟨k, v, hk, rfl⟩
  · rw [← SymbolTable.data?_eq_some_iff, hdata name] at hget
    obtain ⟨k, v, hk, rfl⟩ := (data?_labelTable_eq_some_iff hnd).1 hget
    obtain ⟨cell, hcell, hsplit⟩ := hstores.exists_cell hk.getElem?_dataValues
    refine ⟨k, v, cell, hk, hcell, hsplit, ?_⟩
    -- The data word is among those that fit the memory, and so is the address of the label.
    have hlt : r.before.data.size + k < r.after.data.size :=
      (Array.getElem?_eq_some_iff.1 hcell).1
    have hroom := r.after.dataAddress.toNat_lt_size
    rw [hafter.dataAddress] at hroom
    rw [hafter.address_data _ cell hcell, Address.toNat_add_ofNat (by omega)]
    omega

/-- The distance is the same for all labels of a call. -/
theorem DataLabelsLag.unique {m n : Nat} (h : DataLabelsLag lines m r)
    (h' : DataLabelsLag lines n r) (hfeed : Session.feed lines r.before = .ok () r.after)
    {name : String} {address : Address} (hget : r.after.symbols.get? name = some (.data address)) :
    m = n := by
  obtain ⟨ss, hread, hnd, -⟩ := Session.stores_feed hfeed
  obtain ⟨_, hread', -, -, hlag⟩ := h
  obtain rfl := Except.ok.inj (hread.symm.trans hread')
  obtain ⟨_, hread', -, -, hlag'⟩ := h'
  obtain rfl := Except.ok.inj (hread.symm.trans hread')
  obtain ⟨k, v, cell, hk, hcell, -, haddress⟩ := hlag name address hget
  obtain ⟨k', v', cell', hk', hcell', -, haddress'⟩ := hlag' name address hget
  obtain rfl := hk.unique hnd hk'
  obtain rfl := Option.some.inj (hcell.symm.trans hcell')
  omega

end

/-- **Data labels fall behind the data words** of a session that is fed more than once.  After each
call that succeeds, every data label stands in front of a number of that call, and the session has
stored that number at an address behind the one that the label names, by as many addresses as there
were data words before the call.  So the labels of a call name the right addresses exactly if no
data word was there before, or the call has no data labels. -/
theorem data_labels_of_calls {config : Config} {s : Session} (h : Session.start config = .ok s)
    {calls : List Call}
    (hspace : ∀ r ∈ s.history calls, ∀ e ∈ r.error?, e.isAddressSpace = false) :
    ∀ r ∈ s.history calls, ∀ lines, r.call = .feed lines → r.error? = none →
      DataLabelsLag lines r.before.data.size r ∧
      (DataLabelsLag lines 0 r ↔ r.before.data.size = 0 ∨
        ∀ name address, r.after.symbols.get? name ≠ some (.data address)) := by
  intro r hr lines hcall hok
  have hconsistent := consistent_of_calls h hspace r hr
  obtain ⟨-, rfl⟩ := Session.start_eq_ok_iff.1 h
  obtain ⟨hperform, hconfig⟩ := Session.eq_perform_of_mem_history hr
  have hfeed : Session.feed lines r.before = .ok () r.after := by
    have hstep := Call.step_eq_ok_of_perform (c := r.call) (s := r.before) (by rwa [hperform])
    rw [hperform, hcall] at hstep
    exact hstep
  have hlag := dataLabelsLag_of_feed hconfig hconsistent hfeed
  refine ⟨hlag, fun hzero => ?_, ?_⟩
  · by_cases hlabels : ∃ name address, r.after.symbols.get? name = some (.data address)
    · obtain ⟨name, address, hget⟩ := hlabels
      exact .inl (hlag.unique hzero hfeed hget)
    · exact .inr fun name address hget => hlabels ⟨name, address, hget⟩
  · rintro (hsize | hnone)
    · rw [hsize] at hlag
      exact hlag
    · obtain ⟨ss, hread, hdata, hdeclared, -⟩ := hlag
      exact ⟨ss, hread, hdata, hdeclared, fun name address hget => absurd hget (hnone name address)⟩

/-- Lines with a data label. -/
def labelledLines : List SourceLine :=
  [⟨0, "x:"⟩, ⟨1, ".word 2"⟩]

/-- A session that stores a number before it is fed a data label. -/
def twiceFed : List Call :=
  [ .feed [⟨0, ".word 1"⟩], .feed labelledLines ]

/-- The label of the second call names address zero, one in front of its number. -/
theorem data_labels_of_twiceFed :
    Session.start bareConfig = .ok (.fresh bareConfig) ∧
    ((Session.fresh bareConfig).history twiceFed).map (·.error?) = [none, none] ∧
    ∃ r ∈ (Session.fresh bareConfig).history twiceFed, r.call = .feed labelledLines ∧
      r.after.symbols.get? "x" = some (.data 0) ∧ DataLabelsLag labelledLines 1 r := by
  have hstart : Session.start bareConfig = .ok (.fresh bareConfig) := rfl
  have herrors : ((Session.fresh bareConfig).history twiceFed).map (·.error?) = [none, none] := by
    decide +kernel
  have hok : ∀ r ∈ (Session.fresh bareConfig).history twiceFed, r.error? = none := by
    intro r hr
    have hmem := List.mem_map_of_mem (f := (·.error?)) hr
    rw [herrors] at hmem
    simpa using hmem
  obtain ⟨r, hr, hcall, hsize, hget⟩ : ∃ r ∈ (Session.fresh bareConfig).history twiceFed,
      r.call = .feed labelledLines ∧ r.before.data.size = 1 ∧
        r.after.symbols.get? "x" = some (.data 0) := by
    decide +kernel
  have hlag := data_labels_of_calls hstart (fun r hr e he => by simp [hok r hr] at he) r hr _ hcall
    (hok r hr)
  rw [hsize] at hlag
  exact ⟨hstart, herrors, r, hr, hcall, hget, hlag.1⟩

/-- **A data label is behind once a session holds data.**  Both calls succeed, and yet the label of
the second one does not name the address that its number is stored at. -/
theorem data_label_behind_of_second_feed :
    ∃ r ∈ (Session.fresh bareConfig).history twiceFed, r.call = .feed labelledLines ∧
      r.error? = none ∧ ¬ DataLabelsLag labelledLines 0 r := by
  obtain ⟨r, hr, hcall, hok, hsize, hget, hnone⟩ :
      ∃ r ∈ (Session.fresh bareConfig).history twiceFed, r.call = .feed labelledLines ∧
        r.error? = none ∧ r.before.data.size = 1 ∧ r.after.symbols.get? "x" = some (.data 0) ∧
        (r.after.data.toList.drop 1).all (·.address.toNat != 0) = true := by
    decide +kernel
  refine ⟨r, hr, hcall, hok, ?_⟩
  rintro ⟨ss, -, -, -, hlag⟩
  obtain ⟨k, v, cell, -, hcell, -, haddress⟩ := hlag "x" 0 hget
  -- The words behind the first one are not at address zero.
  have hmem : cell ∈ r.after.data.toList.drop 1 := by
    refine List.mem_of_getElem? (i := k) ?_
    rw [List.getElem?_drop, Array.getElem?_toList, ← hsize]
    exact hcell
  exact bne_iff_ne.1 (List.all_eq_true.1 hnone cell hmem) haddress

end FlaglessAsm
