import FlaglessAsm.Proofs.Calls

/-!
# What becomes of deferred branches

A branch is deferred while its label is not bound, and leaves the list of deferred branches at the
next time the session is resolved, whether it could be patched or not.  From then on its word is
settled: words are only appended, and later branches stand behind it.

So a history in which every resolving call succeeds loses no branch.  A resolving call that fails,
however, takes all deferred branches off the list and patches only those in front of the one it
failed at.  That branch keeps a displacement of zero for good, and no later call reports it.

## What is here

* `Settled`: a word that no later call changes.
* `getElem?_patched?_of_ne`, `exists_word_of_patched?`: patched words, one by one.
* `settled_of_resolve`, `exists_settled_of_failed_resolve`: what resolving settles.
* `NoBranchLost`, `noBranchLost_of_resolved`: histories that lose no branch.
* `exists_lost_of_history`: what is lost when a resolving call fails.
* `deferred_branches_of_calls`: both, for every session that starts.
* `branch_lost_of_failed_resolve`: a branch that is never patched, although its label is bound when
  the session is resolved in the end.
-/

set_option autoImplicit false

namespace FlaglessAsm

/-! ## Patched words -/

section
variable {t : SymbolTable} {bs : List DeferredBranch} {text text' : List InstructionCell}

/-- Patching leaves a word alone if no branch stands at its position. -/
theorem getElem?_patched?_of_ne (h : patched? t bs text = some text') {k : Nat}
    (hk : ∀ b ∈ bs, b.position ≠ k) : text'[k]? = text[k]? := by
  induction bs generalizing text with
  | nil => rw [Option.some_inj.1 h]
  | cons b bs ih =>
    obtain ⟨word, -, hrest⟩ := Option.bind_eq_some_iff.1 h
    rw [ih hrest fun c hc => hk c (List.mem_cons_of_mem _ hc),
      List.getElem?_modify_ne _ _ (hk b (List.mem_cons_self ..))]

/-- Patching gives every branch its word, at the address that was there. -/
theorem exists_word_of_patched? (h : patched? t bs text = some text')
    (hbs : bs.Pairwise fun a b => a.position < b.position) {b : DeferredBranch} (hb : b ∈ bs)
    {cell : InstructionCell} (hcell : text[b.position]? = some cell) :
    ∃ word, b.word? t = some word ∧ text'[b.position]? = some { cell with word } := by
  induction bs generalizing text with
  | nil => cases hb
  | cons c bs ih =>
    obtain ⟨word, hword, hrest⟩ := Option.bind_eq_some_iff.1 h
    obtain ⟨hlt, hbs⟩ := List.pairwise_cons.1 hbs
    rcases List.mem_cons.1 hb with rfl | hb
    · refine ⟨word, hword, ?_⟩
      rw [getElem?_patched?_of_ne hrest fun d hd => Nat.ne_of_gt (hlt d hd),
        List.getElem?_modify_eq, hcell]
      rfl
    · refine ih hrest hbs hb ?_
      rw [List.getElem?_modify_ne _ _ (Nat.ne_of_lt (hlt b hb)), hcell]

end

/-! ## Settled words -/

/-- The instruction word at a position will not change: no deferred branch stands there. -/
structure Settled (position : Nat) (cell : InstructionCell) (s : Session) : Prop where
  text : s.text[position]? = some cell
  deferred : ∀ b ∈ s.deferred.toList, b.position ≠ position

namespace Settled

variable {k : Nat} {cell : InstructionCell} {s u : Session}

theorem change {next : Address → Address → Prop} (h : Settled k cell s)
    (hchange : s.Change next u) : Settled k cell u := by
  cases hchange with
  | word word pc => exact ⟨getElem?_push_of_eq_some h.text _, h.deferred⟩
  | branch line condition label word hword pc =>
    refine ⟨getElem?_push_of_eq_some h.text _, fun b hb => ?_⟩
    change b ∈ (s.deferred.push _).toList at hb
    rw [Array.toList_push] at hb
    rcases List.mem_append.1 hb with hb | hb
    · exact h.deferred b hb
    · rw [List.mem_singleton.1 hb]
      exact Nat.ne_of_gt (Array.getElem?_eq_some_iff.1 h.text).1
  | _ => exact ⟨h.text, h.deferred⟩

theorem resolve (h : Settled k cell s) : Settled k cell (Call.resolve.perform s).after := by
  obtain ⟨error?, bs, text, hfront, htext, hperform⟩ := Call.exists_perform_resolve s
  rw [hperform]
  refine ⟨?_, by simp⟩
  rw [List.getElem?_toArray, getElem?_patched?_of_ne htext fun b hb =>
    h.deferred b (hfront.subset hb), Array.getElem?_toList]
  exact h.text

theorem perform (h : Settled k cell s) (c : Call) : Settled k cell (c.perform s).after := by
  cases c with
  | feed lines => exact Call.perform_feed_of_change (fun hchange ht => ht.change hchange) lines h
  | resolve => exact h.resolve

/-- **A settled word stays as it is** in all later calls. -/
theorem history (h : Settled k cell s) (calls : List Call) :
    ∀ r ∈ s.history calls, Settled k cell r.after :=
  Session.forall_mem_history h fun c _ _ ht => ht.perform c

end Settled

/-! ## What resolving settles -/

/-- No branch is deferred behind a resolving call, even if it fails. -/
theorem Call.deferred_perform_resolve (s : Session) :
    (Call.resolve.perform s).after.deferred = #[] := by
  obtain ⟨_, _, _, -, -, hperform⟩ := Call.exists_perform_resolve s
  rw [hperform]

theorem DeferredInPlace.perform {s : Session} (h : DeferredInPlace s) (c : Call) :
    DeferredInPlace (c.perform s).after := by
  cases c with
  | feed lines => exact Call.perform_feed_of_change (fun hchange ht => ht.change hchange) lines h
  | resolve => exact deferredInPlace_of_eq_empty (Call.deferred_perform_resolve s)

/-- Feeding a session leaves its deferred branches deferred. -/
theorem mem_deferred_feed {s : Session} {b : DeferredBranch} (hb : b ∈ s.deferred.toList)
    (lines : List SourceLine) : b ∈ ((Call.feed lines).perform s).after.deferred.toList := by
  refine Call.perform_feed_of_change (I := fun s => b ∈ s.deferred.toList) ?_ lines hb
  intro t u hchange ht
  cases hchange with
  | branch line condition label word hword pc =>
    change b ∈ (t.deferred.push _).toList
    rw [Array.toList_push]
    exact List.mem_append_left _ ht
  | _ => exact ht

/-- A resolving call that succeeds gives every deferred branch its word for good. -/
theorem settled_of_resolve {s : Session} (h : DeferredInPlace s)
    (hok : (Call.resolve.perform s).error? = none) {b : DeferredBranch}
    (hb : b ∈ s.deferred.toList) :
    ∃ word, b.word? s.symbols = some word ∧
      Settled b.position ⟨b.pc, word⟩ (Call.resolve.perform s).after := by
  rcases Session.resolve_cases s with ⟨text, htext, hresolve⟩ | ⟨e, _, _, _, _, -, -, -, hresolve⟩
  · obtain ⟨zero, -, hcell⟩ := h.placeholder b hb
    rw [← Array.getElem?_toList] at hcell
    obtain ⟨word, hword, hpatched⟩ := exists_word_of_patched? htext h.increasing hb hcell
    rw [Call.perform_resolve_of_eq_ok hresolve]
    exact ⟨word, hword, by rwa [List.getElem?_toArray], by simp⟩
  · rw [Call.perform_resolve_of_eq_error hresolve] at hok
    cases hok

/-- A resolving call that fails leaves a branch behind that goes nowhere for good. -/
theorem exists_settled_of_failed_resolve {s : Session} (h : DeferredInPlace s)
    (herror : (Call.resolve.perform s).error? ≠ none) :
    ∃ b ∈ s.deferred.toList, b.word? s.symbols = none ∧ ∃ word,
      (Instruction.branch b.condition 0).encode = .ok word ∧
      Settled b.position ⟨b.pc, word⟩ (Call.resolve.perform s).after := by
  rcases Session.resolve_cases s with
    ⟨text, htext, hresolve⟩ | ⟨e, as, b, bs, text, hdeferred, hb, htext, hresolve⟩
  · rw [Call.perform_resolve_of_eq_ok hresolve] at herror
    exact absurd rfl herror
  · have hmem : b ∈ s.deferred.toList := by simp [hdeferred]
    obtain ⟨zero, hzero, hcell⟩ := h.placeholder b hmem
    refine ⟨b, hmem, hb, zero, hzero, ?_⟩
    rw [Call.perform_resolve_of_eq_error hresolve]
    -- The branches in front of `b` stand at smaller positions, so their patches pass it by.
    have hfront := h.increasing
    rw [hdeferred, List.pairwise_append] at hfront
    have hne : ∀ a ∈ as, a.position ≠ b.position := fun a ha =>
      Nat.ne_of_lt (hfront.2.2 a ha b (List.mem_cons_self ..))
    refine ⟨?_, by simp⟩
    rw [List.getElem?_toArray, getElem?_patched?_of_ne htext hne, Array.getElem?_toList]
    exact hcell

/-! ## Whole histories -/

/-- A history that ends with a resolving call that succeeds has patched every branch that was
deferred at any time: its word goes to a code address that its label was bound to when the session
was resolved. -/
def NoBranchLost (history : List Performed) : Prop :=
  ∀ last ∈ history.getLast?, last.call = .resolve → last.error? = none →
    ∀ r ∈ history, ∀ b ∈ r.after.deferred.toList,
      ∃ r' ∈ history, r'.call = .resolve ∧ ∃ target word,
        r'.before.symbols.code? b.label = some target ∧
        (Instruction.branch b.condition (Instruction.displacement target b.pc)).encode = .ok word ∧
        last.after.text[b.position]? = some ⟨b.pc, word⟩

theorem DeferredBranch.word?_eq_some_iff {b : DeferredBranch} {t : SymbolTable} {word : Word} :
    b.word? t = some word ↔ ∃ target, t.code? b.label = some target ∧
      (Instruction.branch b.condition (Instruction.displacement target b.pc)).encode
        = .ok word := by
  rw [DeferredBranch.word?, Instruction.wordAt?, Instruction.located?]
  cases t.code? b.label with
  | none => simp
  | some target => simp [toOption_eq_some_iff]

/-- A call of a history is made in a session that an earlier call left behind, or in the first one,
and later calls go on from it. -/
theorem Session.exists_of_history_eq_append {s : Session} {calls : List Call}
    {front rest : List Performed} {r : Performed} (h : s.history calls = front ++ r :: rest) :
    ∃ (c : Call) (t : Session) (later : List Call), r = c.perform t ∧
      rest = r.after.history later ∧ (t = s ∨ ∃ r' ∈ front, t = r'.after) := by
  induction calls generalizing s front with
  | nil => simp [Session.history] at h
  | cons c calls ih =>
    rw [Session.history] at h
    cases front with
    | nil =>
      obtain ⟨rfl, rfl⟩ := List.cons.inj h
      exact ⟨c, s, calls, rfl, rfl, .inl rfl⟩
    | cons r' front =>
      obtain ⟨rfl, hlater⟩ := List.cons.inj h
      obtain ⟨d, t, later, hr, hrest, ht⟩ := ih hlater
      refine ⟨d, t, later, hr, hrest, .inr ?_⟩
      rcases ht with rfl | ⟨r'', hmem, rfl⟩
      · exact ⟨_, List.mem_cons_self .., rfl⟩
      · exact ⟨r'', List.mem_cons_of_mem _ hmem, rfl⟩

/-- A deferred branch is patched by the next resolving call, and stays so. -/
theorem exists_patched_of_history {s : Session} (h : DeferredInPlace s) {b : DeferredBranch}
    (hb : b ∈ s.deferred.toList) {calls : List Call} {last : Performed}
    (hlast : last ∈ (s.history calls).getLast?) (hcall : last.call = .resolve)
    (hok : ∀ r ∈ s.history calls, r.call = .resolve → r.error? = none) :
    ∃ r ∈ s.history calls, r.call = .resolve ∧ ∃ word, b.word? r.before.symbols = some word ∧
      last.after.text[b.position]? = some ⟨b.pc, word⟩ := by
  induction calls generalizing s with
  | nil => simp [Session.history] at hlast
  | cons c calls ih =>
    rw [Session.history, List.getLast?_cons, Option.mem_some_iff] at hlast
    cases c with
    | feed lines =>
      cases hrest : (((Call.feed lines).perform s).after.history calls).getLast? with
      | none =>
        -- The last call feeds the session, and does not resolve it.
        rw [hrest, Option.getD_none] at hlast
        rw [← hlast, Call.call_perform] at hcall
        cases hcall
      | some r =>
        rw [hrest, Option.getD_some] at hlast
        obtain ⟨r', hmem, hr'⟩ := ih (h.perform _) (mem_deferred_feed hb lines) (hlast ▸ hrest)
          fun r hr => hok r (List.mem_cons_of_mem _ hr)
        exact ⟨r', List.mem_cons_of_mem _ hmem, hr'⟩
    | resolve =>
      have hnone := hok _ (List.mem_cons_self ..) (Call.call_perform _ _)
      obtain ⟨word, hword, hsettled⟩ := settled_of_resolve h hnone hb
      refine ⟨_, List.mem_cons_self .., Call.call_perform _ _, word, by simpa using hword, ?_⟩
      cases hrest : ((Call.resolve.perform s).after.history calls).getLast? with
      | none =>
        rw [hrest, Option.getD_none] at hlast
        rw [← hlast]
        exact hsettled.text
      | some r =>
        rw [hrest, Option.getD_some] at hlast
        rw [← hlast]
        exact (hsettled.history calls r (List.mem_of_getLast? hrest)).text

theorem deferredInPlace_of_history (config : Config) (calls : List Call) :
    ∀ r ∈ (Session.fresh config).history calls, DeferredInPlace r.after :=
  Session.forall_mem_history (deferredInPlace_of_eq_empty rfl) fun c _ _ ht => ht.perform c

/-- A history in which every resolving call succeeds loses no branch. -/
theorem noBranchLost_of_resolved {config : Config} {calls : List Call}
    (hok : ∀ r ∈ (Session.fresh config).history calls, r.call = .resolve → r.error? = none) :
    NoBranchLost ((Session.fresh config).history calls) := by
  intro last hlast hcall _ r hr b hb
  obtain ⟨front, rest, hhistory⟩ := List.append_of_mem hr
  obtain ⟨c, t, later, hperform, rfl, -⟩ := Session.exists_of_history_eq_append hhistory
  rw [hhistory, List.getLast?_append, List.getLast?_cons, Option.some_or,
    Option.mem_some_iff] at hlast
  cases hrest : (r.after.history later).getLast? with
  | none =>
    -- Nothing is deferred behind the last call, which resolves the session.
    rw [hrest, Option.getD_none] at hlast
    obtain rfl : c = .resolve := by
      rw [← hlast, hperform, Call.call_perform] at hcall
      exact hcall
    simp [hperform, Call.deferred_perform_resolve] at hb
  | some r' =>
    rw [hrest, Option.getD_some] at hlast
    have hmem {x : Performed} (hx : x ∈ r.after.history later) :
        x ∈ (Session.fresh config).history calls := by
      simp [hhistory, hx]
    obtain ⟨x, hx, hresolve, word, hword, htext⟩ :=
      exists_patched_of_history (deferredInPlace_of_history config calls r hr) hb
        (hlast ▸ hrest) hcall fun x hx => hok x (hmem hx)
    obtain ⟨target, htarget, hencode⟩ := DeferredBranch.word?_eq_some_iff.1 hword
    exact ⟨x, hmem hx, hresolve, target, word, htarget, hencode, htext⟩

/-- A resolving call that fails loses a branch for good. -/
theorem exists_lost_of_history {config : Config} {calls : List Call}
    {front rest : List Performed} {r : Performed}
    (hhistory : (Session.fresh config).history calls = front ++ r :: rest)
    (hcall : r.call = .resolve) (herror : r.error? ≠ none) :
    ∃ b ∈ r.before.deferred.toList, ∃ word, (Instruction.branch b.condition 0).encode = .ok word ∧
      ∀ r' ∈ r :: rest, b ∉ r'.after.deferred.toList ∧
        r'.after.text[b.position]? = some ⟨b.pc, word⟩ := by
  obtain ⟨c, t, later, rfl, rfl, ht⟩ := Session.exists_of_history_eq_append hhistory
  obtain rfl : c = .resolve := by simpa using hcall
  have htplace : DeferredInPlace t := by
    rcases ht with rfl | ⟨r', hr', rfl⟩
    · exact deferredInPlace_of_eq_empty rfl
    · exact deferredInPlace_of_history config calls r' (by simp [hhistory, hr'])
  obtain ⟨b, hb, -, word, hword, hsettled⟩ := exists_settled_of_failed_resolve htplace herror
  refine ⟨b, by simpa using hb, word, hword, ?_⟩
  rw [List.forall_mem_cons]
  refine ⟨⟨fun hmem => hsettled.deferred b hmem rfl, hsettled.text⟩, fun r' hr' => ?_⟩
  have hlater := hsettled.history later r' hr'
  exact ⟨fun hmem => hlater.deferred b hmem rfl, hlater.text⟩

/-- **No branch is lost as long as every resolving call succeeds**, whichever other calls fail.
When a resolving call fails, one of the deferred branches is lost: from then on it is not deferred
any more, and its word keeps a displacement of zero whatever is called afterwards. -/
theorem deferred_branches_of_calls {config : Config} {s : Session}
    (h : Session.start config = .ok s) (calls : List Call) :
    ((∀ r ∈ s.history calls, r.call = .resolve → r.error? = none) →
      NoBranchLost (s.history calls)) ∧
    ∀ front r rest, s.history calls = front ++ r :: rest → r.call = .resolve → r.error? ≠ none →
      ∃ b ∈ r.before.deferred.toList, ∃ word, (Instruction.branch b.condition 0).encode = .ok word ∧
        ∀ r' ∈ r :: rest, b ∉ r'.after.deferred.toList ∧
          r'.after.text[b.position]? = some ⟨b.pc, word⟩ := by
  obtain ⟨-, rfl⟩ := Session.start_eq_ok_iff.1 h
  refine ⟨noBranchLost_of_resolved, ?_⟩
  intro front r rest hhistory hcall herror
  exact exists_lost_of_history hhistory hcall herror

/-- A failing call that leaves a branch deferred, a call with the label it waits for, and one that
resolves it. -/
def resumedCalls : List Call :=
  [ .feed [⟨0, "b x"⟩, ⟨1, "bge x"⟩], .feed [⟨0, "x:"⟩, ⟨1, "nop"⟩], .resolve ]

/-- The branch of the failing call is patched in the end. -/
theorem deferred_branches_of_resumedCalls :
    Session.start loopConfig = .ok (.fresh loopConfig) ∧
    ((Session.fresh loopConfig).history resumedCalls).map (·.error?)
      = [some (.onLine ⟨1, "bge x"⟩ .branchWithoutCompare), none, none] ∧
    (∃ r ∈ (Session.fresh loopConfig).history resumedCalls,
      ⟨⟨0, "b x"⟩, 6, 22, .always, "x"⟩ ∈ r.after.deferred.toList) ∧
    NoBranchLost ((Session.fresh loopConfig).history resumedCalls) := by
  have hstart : Session.start loopConfig = .ok (.fresh loopConfig) := rfl
  refine ⟨hstart, by decide +kernel, by decide +kernel, ?_⟩
  exact (deferred_branches_of_calls hstart resumedCalls).1 (by decide +kernel)

/-- A configuration without prologue and padding. -/
def bareConfig : Config :=
  { hazardPad := 0, prologue := false }

/-- The label of a branch is only fed after a first attempt to resolve it. -/
def lateCalls : List Call :=
  [ .feed [⟨0, "b x"⟩], .resolve, .feed [⟨0, "x:"⟩, ⟨1, "nop"⟩], .resolve ]

/-- **A branch is lost when a resolving call fails.**  The first attempt to resolve it fails, the
last one succeeds with its label bound, and yet its word goes nowhere. -/
theorem branch_lost_of_failed_resolve :
    ¬ NoBranchLost ((Session.fresh bareConfig).history lateCalls) := by
  intro h
  have hany : (((Session.fresh bareConfig).history lateCalls).getLast?.any fun last =>
      last.call = .resolve ∧ last.error? = none ∧
        last.after.text[0]? = some ⟨0, 0xEA000000⟩) = true := by
    decide +kernel
  obtain ⟨last, hlast, hend⟩ := (Option.any_eq_true _ _).1 hany
  obtain ⟨hcall, hok, htext⟩ := of_decide_eq_true hend
  obtain ⟨r, hr, hb⟩ : ∃ r ∈ (Session.fresh bareConfig).history lateCalls,
      ⟨⟨0, "b x"⟩, 0, 0, .always, "x"⟩ ∈ r.after.deferred.toList := by
    decide +kernel
  obtain ⟨r', hr', -, target, word, htarget, hword, htext'⟩ := h last hlast hcall hok r hr _ hb
  -- Wherever the label was bound before a call, it was not two words ahead of the branch.
  have hall : (((Session.fresh bareConfig).history lateCalls).all fun r =>
      (r.before.symbols.code? "x").all fun target =>
        (Instruction.branch .always (Instruction.displacement target 0)).encode.toOption
          != some 0xEA000000) = true := by
    decide +kernel
  have hne := (Option.all_eq_true _ _).1 (List.all_eq_true.1 hall r' hr') target htarget
  rw [htext, Option.some_inj, InstructionCell.mk.injEq] at htext'
  refine bne_iff_ne.1 hne (toOption_eq_some_iff.2 ?_)
  rw [htext'.2]
  exact hword

end FlaglessAsm
