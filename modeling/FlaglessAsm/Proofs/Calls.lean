import FlaglessAsm.Proofs.Changes

/-!
# Calls on a session

A session is fed and resolved any number of times, in any order, and goes on after a call that
failed.  This file says what can be relied on throughout: words stand at consecutive addresses, code
labels name positions among them, and every deferred branch has a word that goes nowhere yet at its
position.

The labels are replaced whenever a session is fed, while words and deferred branches go on, so none
of this follows from what a single source text stands for.  It is kept by every elementary change
(`Consistent.change`), hence by every call, however it ends; only a call that ran out of addresses
is another matter.

## What is here

* `Call`, `Performed`, `Session.history`: calls, and what came of them.
* `DeferredInPlace`: the deferred branches of a session and their words.
* `Consistent`: where the words and labels of a session stand.
* `consistent_of_calls`: a session is consistent after each call.
-/

set_option autoImplicit false

namespace FlaglessAsm

/-! ## Calls -/

/-- A call on a session. -/
inductive Call where
  | feed (lines : List SourceLine)
  | resolve
  deriving DecidableEq

/-- The step that a call makes. -/
def Call.step : Call → Step Unit
  | .feed lines => Session.feed lines
  | .resolve => do
    let _ ← Session.resolve

/-- A call with the session before it, the error it returned if it failed, and the session it left
behind. -/
structure Performed where
  call : Call
  before : Session
  error? : Option AsmError
  after : Session

/-- Makes a call. -/
def Call.perform (c : Call) (s : Session) : Performed :=
  match c.step.run s with
  | .ok () after => { call := c, before := s, error? := none, after }
  | .error e after => { call := c, before := s, error? := some e, after }

/-- A list of calls, one after the other on one session. -/
def Session.history (s : Session) : List Call → List Performed
  | [] => []
  | c :: rest => c.perform s :: (c.perform s).after.history rest

/-! ## What a call does -/

namespace Call

variable {c : Call} {s u : Session}

theorem perform_of_step_eq_ok (h : c.step s = .ok () u) : c.perform s = ⟨c, s, none, u⟩ := by
  simp only [perform, EStateM.run, h]

theorem perform_of_step_eq_error {e : AsmError} (h : c.step s = .error e u) :
    c.perform s = ⟨c, s, some e, u⟩ := by
  simp only [perform, EStateM.run, h]

@[simp] theorem call_perform (c : Call) (s : Session) : (c.perform s).call = c := by
  rw [perform]
  split <;> rfl

@[simp] theorem before_perform (c : Call) (s : Session) : (c.perform s).before = s := by
  rw [perform]
  split <;> rfl

theorem perform_resolve_of_eq_ok {n : Nat} (h : Session.resolve s = .ok n u) :
    Call.resolve.perform s = ⟨.resolve, s, none, u⟩ :=
  perform_of_step_eq_ok (Session.bind_of_eq_ok h)

theorem perform_resolve_of_eq_error {e : AsmError} (h : Session.resolve s = .error e u) :
    Call.resolve.perform s = ⟨.resolve, s, some e, u⟩ :=
  perform_of_step_eq_error (Session.bind_of_eq_error h)

/-- Feeding a session is a chain of changes.  If it runs out of addresses, the last one leaves the
address where it is. -/
theorem perform_feed_cases (lines : List SourceLine) (s : Session) :
    s.Changes ((feed lines).perform s).after ∨
    ∃ e t, ((feed lines).perform s).error? = some e ∧ e.isAddressSpace = true ∧ s.Changes t ∧
      t.Change (fun a b => b = a) ((feed lines).perform s).after := by
  have hends := Session.ends_feed lines s
  cases hfeed : Session.feed lines s with
  | ok _ u =>
    rw [hfeed] at hends
    rw [perform_of_step_eq_ok (c := feed lines) hfeed]
    exact .inl hends
  | error e u =>
    rw [hfeed] at hends
    rw [perform_of_step_eq_error (c := feed lines) hfeed]
    rcases hends with hends | ⟨he, t, ht, hlast⟩
    · exact .inl hends
    · exact .inr ⟨e, t, rfl, he, ht, hlast⟩

/-- What every change keeps is kept by feeding a session, however it ends. -/
theorem perform_feed_of_change {I : Session → Prop}
    (hI : ∀ {t u : Session}, t.Change (fun _ _ => True) u → I t → I u) (lines : List SourceLine)
    (hs : I s) : I ((feed lines).perform s).after := by
  have hchanges {t : Session} (h : s.Changes t) : I t := by
    induction h with
    | refl => exact hs
    | tail _ hchange ih => exact hI (hchange.mono fun _ _ _ => trivial) ih
  rcases perform_feed_cases lines s with h | ⟨_, t, -, -, ht, hlast⟩
  · exact hchanges h
  · exact hI (hlast.mono fun _ _ _ => trivial) (hchanges ht)

/-- Resolving a session changes words and their branches, but nothing else. -/
theorem exists_perform_resolve (s : Session) :
    ∃ error? bs text, bs <+: s.deferred.toList ∧
      patched? s.symbols bs s.text.toList = some text ∧
      Call.resolve.perform s
        = ⟨.resolve, s, error?, { s with text := text.toArray, deferred := #[] }⟩ := by
  rcases Session.resolve_cases s with
    ⟨text, htext, hresolve⟩ | ⟨e, as, b, bs, text, hdeferred, -, htext, hresolve⟩
  · exact ⟨none, _, text, List.prefix_rfl, htext, perform_resolve_of_eq_ok hresolve⟩
  · refine ⟨some e, as, text, ?_, htext, perform_resolve_of_eq_error hresolve⟩
    rw [hdeferred]
    exact List.prefix_append as (b :: bs)

end Call

/-! ## Patched words -/

section
variable {t : SymbolTable} {bs : List DeferredBranch} {text text' : List InstructionCell}

theorem length_of_patched?_eq_some (h : patched? t bs text = some text') :
    text'.length = text.length := by
  induction bs generalizing text with
  | nil => rw [Option.some_inj.1 h]
  | cons b bs ih =>
    obtain ⟨word, -, hrest⟩ := Option.bind_eq_some_iff.1 h
    rw [ih hrest, List.length_modify]

/-- Patching leaves the addresses of words alone. -/
theorem map_address_of_patched?_eq_some (h : patched? t bs text = some text') (k : Nat) :
    text'[k]?.map (·.address) = text[k]?.map (·.address) := by
  induction bs generalizing text with
  | nil => rw [Option.some_inj.1 h]
  | cons b bs ih =>
    obtain ⟨word, -, hrest⟩ := Option.bind_eq_some_iff.1 h
    rw [ih hrest, List.getElem?_modify]
    cases text[k]? with
    | none => rfl
    | some cell =>
      by_cases hk : b.position = k
      · simp [hk]
      · simp [hk]

end

/-! ## Deferred branches -/

/-- The deferred branches of a session, in the order of their positions: each has a word that goes
nowhere yet at its position, and that word has the address of the branch. -/
structure DeferredInPlace (s : Session) : Prop where
  increasing : s.deferred.toList.Pairwise fun a b => a.position < b.position
  placeholder : ∀ b ∈ s.deferred.toList, ∃ word,
    (Instruction.branch b.condition 0).encode = .ok word ∧
      s.text[b.position]? = some ⟨b.pc, word⟩

theorem getElem?_push_of_eq_some {α : Type} {xs : Array α} {k : Nat} {x : α} (h : xs[k]? = some x)
    (y : α) : (xs.push y)[k]? = some x := by
  obtain ⟨hlt, -⟩ := Array.getElem?_eq_some_iff.1 h
  rw [Array.getElem?_push, if_neg (Nat.ne_of_lt hlt), h]

theorem DeferredInPlace.position_lt {s : Session} (h : DeferredInPlace s) {b : DeferredBranch}
    (hb : b ∈ s.deferred.toList) : b.position < s.text.size := by
  obtain ⟨word, -, hcell⟩ := h.placeholder b hb
  exact (Array.getElem?_eq_some_iff.1 hcell).1

theorem DeferredInPlace.change {next : Address → Address → Prop} {s u : Session}
    (h : DeferredInPlace s) (hchange : s.Change next u) : DeferredInPlace u := by
  cases hchange with
  | word word pc =>
    refine ⟨h.increasing, fun b hb => ?_⟩
    obtain ⟨zero, hzero, hcell⟩ := h.placeholder b hb
    exact ⟨zero, hzero, getElem?_push_of_eq_some hcell _⟩
  | branch line condition label word hword pc =>
    have hdeferred : (s.defer line condition label).deferred.toList
        = s.deferred.toList ++ [⟨line, s.text.size, s.pc, condition, label⟩] :=
      Array.toList_push
    constructor
    · change List.Pairwise _ (s.defer line condition label).deferred.toList
      rw [hdeferred, List.pairwise_append]
      refine ⟨h.increasing, List.pairwise_singleton _ _, fun a ha b hb => ?_⟩
      rw [List.mem_singleton.1 hb]
      exact h.position_lt ha
    · intro b hb
      change b ∈ (s.defer line condition label).deferred.toList at hb
      rw [hdeferred] at hb
      rcases List.mem_append.1 hb with hb | hb
      · obtain ⟨zero, hzero, hcell⟩ := h.placeholder b hb
        exact ⟨zero, hzero, getElem?_push_of_eq_some hcell _⟩
      · rw [List.mem_singleton.1 hb]
        exact ⟨word, hword, Array.getElem?_push_size⟩
  | _ => exact ⟨h.increasing, h.placeholder⟩

theorem deferredInPlace_of_eq_empty {s : Session} (h : s.deferred = #[]) : DeferredInPlace s := by
  constructor <;> simp [h]

/-! ## Consistent sessions -/

/-- Words stand at consecutive addresses, code labels name positions among them, and deferred
branches are in place. -/
structure Consistent (config : Config) (s : Session) : Prop extends DeferredInPlace s where
  address_text : ∀ i c, s.text[i]? = some c → c.address.toNat = config.textStart.toNat + i
  pc : s.pc.toNat = config.textStart.toNat + s.text.size
  address_data : ∀ j c, s.data[j]? = some c → c.address.toNat = config.dataStart.toNat + j
  dataAddress : s.dataAddress.toNat = config.dataStart.toNat + s.data.size
  code : ∀ name pc position, s.symbols.get? name = some (.code pc position) →
    pc.toNat = config.textStart.toNat + position ∧ position ≤ s.text.size

theorem consistent_fresh (config : Config) : Consistent config (.fresh config) where
  toDeferredInPlace := deferredInPlace_of_eq_empty rfl
  address_text i c hc := by simp [Session.fresh] at hc
  pc := rfl
  address_data j c hc := by simp [Session.fresh] at hc
  dataAddress := rfl
  code name pc position hget := by simp [Session.fresh, SymbolTable.get?, SymbolTable.empty] at hget

namespace Consistent

variable {config : Config} {s u : Session}

/-- The instruction words with one more at the next address. -/
theorem address_push (h : Consistent config s) (word : Word) :
    ∀ i c, (s.text.push ⟨s.pc, word⟩)[i]? = some c →
      c.address.toNat = config.textStart.toNat + i := by
  intro i c hc
  rw [Array.getElem?_push] at hc
  split at hc
  · next hi =>
    obtain rfl := Option.some_inj.1 hc
    rw [hi]
    exact h.pc
  · exact h.address_text i c hc

/-- The next address behind one more word. -/
theorem pc_push (h : Consistent config s) (word : Word) {pc : Address} (hpc : s.pc.Next pc) :
    pc.toNat = config.textStart.toNat + (s.text.push ⟨s.pc, word⟩).size := by
  rw [Address.next?_eq_some_iff.1 hpc, h.pc, Array.size_push, Nat.add_assoc]

/-- Labels keep their places when a word is written. -/
theorem code_push (h : Consistent config s) (cell : InstructionCell) :
    ∀ name pc position, s.symbols.get? name = some (.code pc position) →
      pc.toNat = config.textStart.toNat + position ∧ position ≤ (s.text.push cell).size := by
  intro name pc position hget
  obtain ⟨hpc, hle⟩ := h.code name pc position hget
  rw [Array.size_push]
  exact ⟨hpc, Nat.le_succ_of_le hle⟩

/-- **Every change keeps a session consistent.** -/
theorem change (h : Consistent config s) (hchange : s.Change Address.Next u) :
    Consistent config u := by
  have hdeferred := h.toDeferredInPlace.change hchange
  cases hchange with
  | note => exact { h with toDeferredInPlace := hdeferred }
  | collect symbols hcode =>
    refine { h with toDeferredInPlace := hdeferred, code := fun name pc position hget => ?_ }
    have hnone := hcode name
    rw [SymbolTable.code?_eq_some_iff.2 ⟨position, hget⟩] at hnone
    cases hnone
  | bindLabels statement =>
    refine { h with toDeferredInPlace := hdeferred, code := fun name pc position hget => ?_ }
    rw [SymbolTable.get?_bindCode] at hget
    split at hget
    · obtain ⟨rfl, rfl⟩ := Binding.code.inj (Option.some_inj.1 hget)
      exact ⟨h.pc, Nat.le_refl _⟩
    · exact h.code name pc position hget
  | datum high low dataAddress hnext =>
    refine { h with toDeferredInPlace := hdeferred, address_data := ?_, dataAddress := ?_ }
    · intro j c hc
      rw [Array.getElem?_push] at hc
      split at hc
      · next hj =>
        obtain rfl := Option.some_inj.1 hc
        rw [hj]
        exact h.dataAddress
      · exact h.address_data j c hc
    · change dataAddress.toNat = _
      rw [Address.next?_eq_some_iff.1 hnext, h.dataAddress, Array.size_push, Nat.add_assoc]
  | word word pc hnext =>
    exact { h with
      toDeferredInPlace := hdeferred
      address_text := h.address_push word
      pc := h.pc_push word hnext
      code := h.code_push _ }
  | branch line condition label word hword pc hnext =>
    exact { h with
      toDeferredInPlace := hdeferred
      address_text := h.address_push word
      pc := h.pc_push word hnext
      code := h.code_push _ }

theorem changes (h : Consistent config s) (hchanges : s.Changes u) : Consistent config u := by
  induction hchanges with
  | refl => exact h
  | tail _ hchange ih => exact ih.change hchange

theorem resolve (h : Consistent config s) : Consistent config (Call.resolve.perform s).after := by
  obtain ⟨error?, bs, text, -, htext, hperform⟩ := Call.exists_perform_resolve s
  have hsize : text.toArray.size = s.text.size := by
    simpa using length_of_patched?_eq_some htext
  rw [hperform]
  refine { h with
    toDeferredInPlace := deferredInPlace_of_eq_empty rfl
    address_text := fun i c hc => ?_
    pc := ?_
    code := ?_ }
  · have haddress := map_address_of_patched?_eq_some htext i
    rw [List.getElem?_toArray] at hc
    rw [hc, Option.map_some] at haddress
    obtain ⟨c', hc', hsame⟩ := Option.map_eq_some_iff.1 haddress.symm
    rw [← hsame]
    exact h.address_text i c' (by rwa [Array.getElem?_toList] at hc')
  · rw [hsize]
    exact h.pc
  · rw [hsize]
    exact h.code

/-- **Every call keeps a session consistent**, unless it runs out of addresses. -/
theorem perform (h : Consistent config s) (c : Call)
    (hspace : ∀ e ∈ (c.perform s).error?, e.isAddressSpace = false) :
    Consistent config (c.perform s).after := by
  cases c with
  | feed lines =>
    rcases Call.perform_feed_cases lines s with hchanges | ⟨e, _, he, hfull, -⟩
    · exact h.changes hchanges
    · rw [hspace e he] at hfull
      cases hfull
  | resolve => exact h.resolve

end Consistent

/-! ## Whole histories -/

/-- What every call of a history keeps holds after each of them. -/
theorem Session.forall_mem_history {I : Session → Prop} {s : Session} {calls : List Call} (hs : I s)
    (hstep : ∀ (c : Call) t, c.perform t ∈ s.history calls → I t → I (c.perform t).after) :
    ∀ r ∈ s.history calls, I r.after := by
  induction calls generalizing s with
  | nil => simp [Session.history]
  | cons c calls ih =>
    have hfirst := hstep c s (List.mem_cons_self ..) hs
    intro r hr
    rcases List.mem_cons.1 hr with rfl | hr
    · exact hfirst
    · exact ih hfirst (fun c t hmem => hstep c t (List.mem_cons_of_mem _ hmem)) r hr

theorem Session.start_eq_ok_iff {config : Config} {s : Session} :
    Session.start config = .ok s ↔ config.validate = .ok () ∧ s = .fresh config := by
  rw [Session.start]
  cases config.validate with
  | ok => simp [Session.fresh, eq_comm]
  | error => simp

/-- **A session is consistent after each of its calls**, in whatever order it is fed and resolved
and whichever of the calls fail, as long as none of them runs out of addresses. -/
theorem consistent_of_calls {config : Config} {s : Session} (h : Session.start config = .ok s)
    {calls : List Call}
    (hspace : ∀ r ∈ s.history calls, ∀ e ∈ r.error?, e.isAddressSpace = false) :
    ∀ r ∈ s.history calls, Consistent config r.after := by
  obtain ⟨-, rfl⟩ := Session.start_eq_ok_iff.1 h
  refine Session.forall_mem_history (consistent_fresh config) fun c t hmem ht => ?_
  exact ht.perform c (hspace _ hmem)

/-- Two calls that fail, both with a branch left behind, and two that do not. -/
def interruptedCalls : List Call :=
  [ .feed [⟨0, "b x"⟩, ⟨1, "bge x"⟩], .resolve, .feed [⟨0, "b x"⟩, ⟨1, "x:"⟩], .resolve ]

theorem consistent_of_interruptedCalls :
    Session.start loopConfig = .ok (.fresh loopConfig) ∧
    ((Session.fresh loopConfig).history interruptedCalls).map (·.error?)
      = [some (.onLine ⟨1, "bge x"⟩ .branchWithoutCompare),
        some (.onLine ⟨0, "b x"⟩ (.unresolved "x")), none, none] ∧
    ∀ r ∈ (Session.fresh loopConfig).history interruptedCalls, Consistent loopConfig r.after := by
  have herrors : ((Session.fresh loopConfig).history interruptedCalls).map (·.error?)
      = [some (.onLine ⟨1, "bge x"⟩ .branchWithoutCompare),
        some (.onLine ⟨0, "b x"⟩ (.unresolved "x")), none, none] := by
    decide +kernel
  refine ⟨rfl, herrors, consistent_of_calls rfl fun r hr e he => ?_⟩
  have hmem : r.error? ∈ ((Session.fresh loopConfig).history interruptedCalls).map (·.error?) :=
    List.mem_map_of_mem hr
  rw [herrors, he] at hmem
  simp only [List.mem_cons, Option.some_inj, reduceCtorEq, List.not_mem_nil, or_false] at hmem
  rcases hmem with rfl | rfl <;> rfl

end FlaglessAsm
